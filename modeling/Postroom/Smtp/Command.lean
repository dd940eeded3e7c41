/-
`packages/smtp-proto/src/command.ts` and `address.ts`: the commands of a session
and how their parameters are written.

The server engine takes commands apart by verb and the outbound client writes
MAIL and RCPT lines; both meet in `MailParams` and `RcptParams`. How a line of
octets is parsed is a parameter of the engine.
-/
import Postroom.Smtp.Reply

set_option autoImplicit false

namespace Postroom.Smtp

/-- An address in its two parts. -/
structure Mailbox where
  localPart : String
  domain : String
  deriving DecidableEq, Repr

/-- Where MAIL says a message comes from; bounces come from nobody. -/
inductive ReversePath where
  | null
  | mailbox (mailbox : Mailbox)
  deriving DecidableEq, Repr

/-- Where RCPT says it goes; `postmaster` needs no domain. -/
inductive ForwardPath where
  | mailbox (mailbox : Mailbox)
  | postmaster
  deriving DecidableEq, Repr

/-- BODY of MAIL (RFC 6152). -/
inductive BodyType where
  | sevenBit
  | eightBitMime
  deriving DecidableEq, Repr

/-- As it stands on the wire. -/
def BodyType.word : BodyType → String
  | .sevenBit => "7BIT"
  | .eightBitMime => "8BITMIME"

/-- RET of MAIL: how much of the message a bounce carries. -/
inductive DsnRet where
  | full
  | hdrs
  deriving DecidableEq, Repr

def DsnRet.word : DsnRet → String
  | .full => "FULL"
  | .hdrs => "HDRS"

/-- One word of NOTIFY. -/
inductive DsnNotify where
  | never
  | success
  | failure
  | delay
  deriving DecidableEq, Repr

def DsnNotify.word : DsnNotify → String
  | .never => "NEVER"
  | .success => "SUCCESS"
  | .failure => "FAILURE"
  | .delay => "DELAY"

/-- All four, for the client, which reads the words of a stored row. -/
def DsnNotify.values : List DsnNotify := [.never, .success, .failure, .delay]

/-- MAIL parameters; an absent one is `none`, and SMTPUTF8 has no value. -/
structure MailParams where
  size : Option ℕ := none
  body : Option BodyType := none
  smtputf8 : Bool := false
  auth : Option String := none
  ret : Option DsnRet := none
  envid : Option String := none
  deriving DecidableEq, Repr

/-- No parameter was given. -/
def MailParams.isEmpty (p : MailParams) : Bool :=
  p.size.isNone && p.body.isNone && !p.smtputf8 && p.auth.isNone && p.ret.isNone && p.envid.isNone

/-- ORCPT: the recipient as its sender wrote it, with the address type. -/
structure Orcpt where
  addrType : String
  address : String
  deriving DecidableEq, Repr

/-- RCPT parameters. -/
structure RcptParams where
  notify : Option (List DsnNotify) := none
  orcpt : Option Orcpt := none
  deriving DecidableEq, Repr

/-- The two ways to say hello; only EHLO is answered with capabilities. -/
inductive HelloVerb where
  | ehlo
  | helo
  deriving DecidableEq, Repr

/-- A parsed command line. -/
inductive SmtpCommand where
  | hello (verb : HelloVerb) (domain : String)
  | mail (from_ : ReversePath) (params : MailParams)
  | rcpt (to_ : ForwardPath) (params : RcptParams)
  | data
  | rset
  | quit
  | starttls
  | noop (argument : Option String)
  | help (argument : Option String)
  | vrfy (argument : String)
  | auth (mechanism : String) (initialResponse : Option String)
  deriving DecidableEq, Repr

/-! ## Writing parameters -/

def hasNonAscii (s : String) : Bool := s.toList.any fun c => 0x80 ≤ c.toNat

/-- xtext has upper-case digits. -/
def hexDigit (n : ℕ) : Char := "0123456789ABCDEF".toList.getD n '0'

/-- RFC 3461 xtext; characters above U+00FF make it throw. -/
def encodeXtext (s : String) : Except String String := do
  let parts ← s.toList.mapM fun c =>
    if 33 ≤ c.toNat ∧ c.toNat ≤ 126 ∧ c ≠ '+' ∧ c ≠ '=' then .ok [c]
    else if c.toNat ≤ 0xff then .ok ['+', hexDigit (c.toNat / 16), hexDigit (c.toNat % 16)]
    else .error "xtext cannot encode characters above U+00FF"
  .ok (String.ofList parts.flatten)

/-- Each parameter after a space. -/
def joinParams (out : List String) : String := String.join (out.map fun s => " " ++ s)

/-- The parameters in the order of the source, or the error of `encodeXtext`. -/
def formatMailParams (p : MailParams) : Except String String := do
  let size := (p.size.map fun n => "SIZE=" ++ toString n).toList
  let body := (p.body.map fun b => "BODY=" ++ b.word).toList
  let utf8 := if p.smtputf8 then ["SMTPUTF8"] else []
  let auth ← p.auth.toList.mapM fun a => do .ok ("AUTH=" ++ (← encodeXtext a))
  let ret := (p.ret.map fun r => "RET=" ++ r.word).toList
  let envid ← p.envid.toList.mapM fun e => do .ok ("ENVID=" ++ (← encodeXtext e))
  .ok (joinParams (size ++ body ++ utf8 ++ auth ++ ret ++ envid))

/-- NOTIFY and ORCPT. -/
def formatRcptParams (p : RcptParams) : Except String String := do
  let notify := (p.notify.map fun words =>
    "NOTIFY=" ++ ",".intercalate (words.map DsnNotify.word)).toList
  let orcpt ← p.orcpt.toList.mapM fun o => do
    .ok ("ORCPT=" ++ o.addrType ++ ";" ++ (← encodeXtext o.address))
  .ok (joinParams (notify ++ orcpt))

end Postroom.Smtp
