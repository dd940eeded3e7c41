/-
`packages/smtp-proto/src/reply.ts`: SMTP replies as data.

Both ends use them: the server engine formats what it sends, the outbound client
classifies what it reads and takes the capabilities out of an EHLO reply. The
parser that cuts the client's byte stream into replies is not modelled: to the
client's session a reply either arrives whole or the connection fails.

`formatReply` is the only way a reply reaches the wire and it throws on a code it
cannot write.
-/
import Mathlib.Data.List.Basic

set_option autoImplicit false

namespace Postroom.Smtp

/-- A code, an enhanced code where the reply has one, and its lines. -/
structure SmtpReply where
  code : ℕ
  enhanced : Option String := none
  lines : List String
  deriving DecidableEq, Repr

/-- Build a reply; there is always at least one line. -/
def reply (code : ℕ) (enhanced : Option String) (lines : List String) : SmtpReply :=
  ⟨code, enhanced, if lines = [] then [""] else lines⟩

/-- Three digits, and no `1yz`. -/
def isValidReplyCode (code : ℕ) : Bool := 200 ≤ code && code ≤ 599

/-- `class.subject.detail`, the class being the first digit of the code. -/
def isValidEnhancedCode (code : ℕ) (enhanced : String) : Bool :=
  match enhanced.toList.splitOn '.' with
  | [[cls], subject, detail] =>
    (cls == '2' || cls == '4' || cls == '5')
      && (1 ≤ subject.length && subject.length ≤ 3 && subject.all Char.isDigit)
      && (1 ≤ detail.length && detail.length ≤ 3 && detail.all Char.isDigit)
      && String.ofList [cls] == toString (code / 100)
  | _ => false

/-- Every C0 control and DEL becomes a space. -/
def sanitizeReplyText (text : String) : String :=
  String.ofList (text.toList.map fun c => if c.toNat < 0x20 || c.toNat = 0x7f then ' ' else c)

/-- One reply line, CRLF included. -/
def formatLine (code : ℕ) (enhanced : Option String) (last : Bool) (line : String) : String :=
  let text := sanitizeReplyText line
  let text := match enhanced with
    | some e => if text = "" then e else e ++ " " ++ text
    | none => text
  if text = "" then toString code ++ (if last then "" else "-") ++ "\r\n"
  else toString code ++ (if last then " " else "-") ++ text ++ "\r\n"

/-- `formatReply`: the wire text, or the `TypeError` it throws. -/
def formatReply (r : SmtpReply) (useEnhanced : Bool) : Except String String :=
  if !isValidReplyCode r.code then .error ("invalid SMTP reply code " ++ toString r.code)
  else
    let enhanced := if useEnhanced then r.enhanced else none
    if enhanced.any (fun e => !isValidEnhancedCode r.code e) then
      .error ("enhanced code " ++ enhanced.getD "" ++ " does not match reply code "
        ++ toString r.code)
    else
      let lines := if r.lines = [] then [""] else r.lines
      .ok (String.join (lines.zipIdx.map fun (line, i) =>
        formatLine r.code enhanced (i + 1 == lines.length) line))

/-! ## EHLO -/

/-- The greeting stands on the first line, each capability on one of its own. -/
def buildEhloReply (hostname greeting : String) (capabilities : List String) : SmtpReply :=
  { code := 250
    lines := (if greeting = "" then hostname else hostname ++ " " ++ greeting) :: capabilities }

/-- Keyword to parameters: what the client reads from an EHLO reply. -/
abbrev Capabilities := List (String × List String)

namespace Capabilities

/-- `Map.set`, for a keyword in upper case. -/
def set (caps : Capabilities) (keyword : String) (params : List String) : Capabilities :=
  caps.filter (fun c => c.1 ≠ keyword) ++ [(keyword, params)]

def get (caps : Capabilities) (keyword : String) : Option (List String) :=
  (caps.find? fun c => c.1 = keyword).map Prod.snd

def has (caps : Capabilities) (keyword : String) : Bool := (caps.get keyword).isSome

end Capabilities

/-- The words of each line after the first; `words` is `line.trim().split(/\s+/)`
without empty parts. -/
def parseEhloCapabilities (words : String → List String) (toUpperCase : String → String)
    (r : SmtpReply) : Capabilities :=
  (r.lines.drop 1).foldl (fun caps line =>
    match words line with
    | [] => caps
    | keyword :: params => caps.set (toUpperCase keyword) params) []

/-! ## The replies the protocol layer itself sends -/

namespace Replies

def ok : SmtpReply := reply 250 "2.0.0" ["OK"]
def mailOk : SmtpReply := reply 250 "2.1.0" ["Sender OK"]
def rcptOk : SmtpReply := reply 250 "2.1.5" ["Recipient OK"]
def reset : SmtpReply := reply 250 "2.0.0" ["Reset"]
def bye : SmtpReply := reply 221 "2.0.0" ["Bye"]
/-- No address is confirmed or denied. -/
def vrfy : SmtpReply :=
  reply 252 "2.5.0" ["Cannot VRFY user, but will accept message and attempt delivery"]
def help : SmtpReply := reply 214 "2.0.0" ["See RFC 5321"]
/-- The one reply here without an enhanced code. -/
def startData : SmtpReply := reply 354 none ["End data with <CR><LF>.<CR><LF>"]
def startTls : SmtpReply := reply 220 "2.0.0" ["Ready to start TLS"]
def authOk : SmtpReply := reply 235 "2.7.0" ["Authentication successful"]
/-- Outside a message; in one it is `bareLineEndingInData`. -/
def bareLineEnding : SmtpReply := reply 500 "5.5.2" ["Bare LF/CR not allowed"]
def lineTooLong : SmtpReply := reply 500 "5.5.2" ["Line too long"]
def unknownCommand : SmtpReply := reply 500 "5.5.1" ["Command not recognized"]
def ehloFirst : SmtpReply := reply 503 "5.5.1" ["Send EHLO first"]
def mailFirst : SmtpReply := reply 503 "5.5.1" ["Need MAIL command"]
def nestedMail : SmtpReply := reply 503 "5.5.1" ["Sender already specified"]
/-- DATA when no RCPT has been accepted. -/
def noValidRecipients : SmtpReply := reply 554 "5.5.1" ["No valid recipients"]
def alreadyTls : SmtpReply := reply 503 "5.5.1" ["TLS already active"]
def tlsUnavailable : SmtpReply := reply 502 "5.5.1" ["STARTTLS not available"]
def alreadyAuthenticated : SmtpReply := reply 503 "5.5.1" ["Already authenticated"]
def authInTransaction : SmtpReply :=
  reply 503 "5.5.1" ["AUTH not permitted during a mail transaction"]
def authUnavailable : SmtpReply := reply 502 "5.5.1" ["AUTH not available"]
/-- AUTH in the clear where `authRequiresTls` is set. -/
def authNeedsTls : SmtpReply :=
  reply 538 "5.7.11" ["Encryption required for requested authentication mechanism"]
def authMechanism : SmtpReply := reply 504 "5.5.4" ["Unrecognized authentication type"]
def authCancelled : SmtpReply := reply 501 "5.0.0" ["Authentication cancelled"]
def authTempFail : SmtpReply := reply 454 "4.7.0" ["Temporary authentication failure"]
def tooManyRecipients : SmtpReply := reply 452 "4.5.3" ["Too many recipients"]
/-- For MAIL with too large a SIZE, and after the octets of the message. -/
def messageTooBig : SmtpReply :=
  reply 552 "5.3.4" ["Message size exceeds fixed maximum message size"]
def bareLineEndingInData : SmtpReply :=
  reply 550 "5.6.0" ["Bare LF/CR not allowed in message data"]
def nulInData : SmtpReply := reply 550 "5.6.0" ["NUL octets not allowed in message data"]
/-- A hook has thrown, or has answered what it may not. -/
def localError : SmtpReply := reply 451 "4.3.0" ["Local error in processing"]
/-- The last reply before the engine closes. -/
def tooManyErrors : SmtpReply := reply 421 "4.7.0" ["Too many errors, closing connection"]
def idleTimeout : SmtpReply := reply 421 "4.4.2" ["Idle timeout, closing connection"]

end Replies

end Postroom.Smtp
