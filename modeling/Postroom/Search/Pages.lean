/-
`packages/search/src/sql.ts` and `GET /search` of `apps/api/src/mail/index.ts`: a search,
page by page.

The rows come ordered by rank, date and id; the cursor behind a page is the date of
its last row alone. So the pages add up to the result exactly where every page ends
in its earliest date and everything behind it is earlier still (`DateCuts`). Two
messages of one millisecond, or a better match that is older, are enough to lose a
message or to show one twice.

What a query makes of a message, its condition and its rank, is a parameter.
-/
import Mathlib.Data.List.Sort
import Mathlib.Data.Prod.Lex

set_option autoImplicit false

namespace Postroom.Search

open List

/-! ## 1. One page -/

/-- A message, with what `message_search` has of it. -/
structure Message (β : Type) where
  id : ℕ
  accountId : ℕ
  mailboxId : ℕ
  /-- In milliseconds, as the column keeps it. -/
  internalDate : ℤ
  content : β
  deriving DecidableEq

/-- A query, as `buildSearchSql` puts it: `nodePredicate` and `rankExpr`. -/
structure QueryAst (β ρ : Type) where
  predicate : Message β → Bool
  rank : Message β → ρ

structure SearchOptions where
  accountId : ℕ
  mailboxId : Option ℕ
  limit : ℕ
  cursor : Option ℤ

/-- `parseCursor`, for the ISO text of an instant: years before 0 and after 9999 have a
sign and six digits. -/
def parseCursor (cursor : ℤ) : Option ℤ :=
  if cursor < -62167219200000 ∨ 253402300800000 ≤ cursor then none
  else if cursor < 0 ∨ 8640000000000000 < cursor then none
  else some cursor

section

variable {β ρ : Type} [LinearOrder ρ] (store : List (Message β)) (ast : QueryAst β ρ)
  (opts : SearchOptions)

/-- `ORDER BY "rank" DESC, m.internal_date DESC, m.id DESC`. -/
def orderKey (m : Message β) : ρ ×ₗ ℤ ×ₗ ℕ := toLex (ast.rank m, toLex (m.internalDate, m.id))

def conditions (at_ : Option ℤ) (m : Message β) : Bool :=
  m.accountId = opts.accountId && opts.mailboxId.all (m.mailboxId = ·) && ast.predicate m
    && at_.all (m.internalDate < ·)

/-- The rows of the query, all of them. -/
def unlimited (at_ : Option ℤ) : List (Message β) :=
  (store.filter (conditions ast opts at_)).insertionSort fun a b => orderKey ast b ≤ orderKey ast a

/-- `none` is `InvalidSearchCursorError`. -/
def searchMessages : Option (List (Message β)) :=
  (opts.cursor.mapM parseCursor).map fun at_ => (unlimited store ast opts at_).take opts.limit

structure SearchResponse (β : Type) where
  results : List (Message β)
  nextCursor : Option ℤ
  deriving DecidableEq

/-- `GET /search`; `none` is a 400. -/
def getSearch : Option (SearchResponse β) :=
  (searchMessages store ast { opts with limit := opts.limit + 1 }).map fun rows =>
    let page := rows.take opts.limit
    ⟨page, if opts.limit < rows.length then page.getLast?.map (·.internalDate) else none⟩

/-- Following `nextCursor` until it is null visits these messages. -/
inductive Visits : Option ℤ → List (Message β) → Prop
  | last {cursor : Option ℤ} {page : List (Message β)}
      (h : getSearch store ast { opts with cursor := cursor } = some ⟨page, none⟩) :
        Visits cursor page
  | more {cursor : Option ℤ} {page rest : List (Message β)} {next : ℤ}
      (h : getSearch store ast { opts with cursor := cursor } = some ⟨page, some next⟩)
      (hrest : Visits (some next) rest) : Visits cursor (page ++ rest)

end

/-! ## 2. Pages that are cut by date -/

variable {β ρ : Type}

/-- A page of `n` rows ends in its earliest date, an instant that can be a cursor, and all
rows behind it are earlier. -/
structure DateCut (n : ℕ) (rows : List (Message β)) (last : Message β) : Prop where
  cursor : parseCursor last.internalDate = some last.internalDate
  page : ∀ m ∈ rows.take n, last.internalDate ≤ m.internalDate
  rest : ∀ m ∈ rows.drop n, m.internalDate < last.internalDate

/-- Every page but the last one is cut by date. -/
inductive DateCuts (n : ℕ) : List (Message β) → Prop
  | short {rows : List (Message β)} (h : rows.length ≤ n) : DateCuts n rows
  | page {rows : List (Message β)} {last : Message β} (hlast : (rows.take n).getLast? = some last)
      (hcut : DateCut n rows last) (h : DateCuts n (rows.drop n)) : DateCuts n rows

section

variable [LinearOrder ρ] {store : List (Message β)} {ast : QueryAst β ρ} {opts : SearchOptions}
  {cursor : Option ℤ}
  {rows visited : List (Message β)} {last : Message β}

theorem lt_of_mem_unlimited {m : Message β} (hm : m ∈ unlimited store ast opts cursor) :
    ∀ t ∈ cursor, m.internalDate < t := by
  rintro t rfl
  have hmem := of_mem_filter ((mem_insertionSort _).mp hm)
  simp only [conditions, Option.all_some, Bool.and_eq_true, decide_eq_true_eq] at hmem
  exact hmem.2

theorem mapM_parseCursor_eq_some {at_ : Option ℤ} :
    cursor.mapM parseCursor = some at_ ↔ at_ = cursor ∧ ∀ t ∈ cursor, parseCursor t = some t := by
  cases cursor with
  | none => simp [eq_comm]
  | some t =>
    have hsame : ∀ u ∈ parseCursor t, u = t := by
      simp only [parseCursor]
      split_ifs <;> simp [eq_comm]
    cases hu : parseCursor t with
    | none => simp [hu]
    | some u =>
      obtain rfl := hsame u hu
      simp [hu, eq_comm]

/-- What a request answers: a page of the rows before its cursor, and the date of its last
row if there are more. -/
theorem getSearch_eq_some {page : List (Message β)} {next : Option ℤ} :
    getSearch store ast { opts with cursor := cursor } = some ⟨page, next⟩
      ↔ (∀ t ∈ cursor, parseCursor t = some t)
        ∧ page = (unlimited store ast opts cursor).take opts.limit
        ∧ next = if opts.limit < (unlimited store ast opts cursor).length then
          page.getLast?.map (·.internalDate)
          else none := by
  have hlen : ∀ rows : List (Message β), opts.limit < min (opts.limit + 1) rows.length
      ↔ opts.limit < rows.length := by
    intro rows
    omega
  rw [getSearch, searchMessages, Option.map_map, Option.map_eq_some_iff]
  simp only [mapM_parseCursor_eq_some, Function.comp_apply, take_take, length_take, hlen,
    SearchResponse.mk.injEq, and_assoc, exists_eq_left, min_eq_left (Nat.le_succ _)]
  refine and_congr_right fun _ => ⟨?_, ?_⟩
  · rintro ⟨rfl, rfl⟩
    exact ⟨rfl, rfl⟩
  · rintro ⟨rfl, rfl⟩
    exact ⟨rfl, rfl⟩

/-- The rows before the date of a row are those before the cursor that are earlier, in the
same order. -/
theorem filter_unlimited (hids : (store.map Message.id).Nodup)
    (hlast : last ∈ unlimited store ast opts cursor) :
    (unlimited store ast opts cursor).filter (fun m => m.internalDate < last.internalDate)
      = unlimited store ast opts (some last.internalDate) := by
  refine List.Perm.eq_of_pairwise ?_ ((pairwise_insertionSort _ _).filter _)
    (pairwise_insertionSort _ _) ?_
  · intro a b ha hb hab hba
    have hmem : ∀ {at_ : Option ℤ} {m}, m ∈ unlimited store ast opts at_ → m ∈ store := fun hm =>
      mem_of_mem_filter ((mem_insertionSort _).mp hm)
    have hkey : orderKey ast a = orderKey ast b := le_antisymm hba hab
    have hid : a.id = b.id := congrArg (fun key => (ofLex (ofLex key).2).2) hkey
    exact inj_on_of_nodup_map hids (hmem (mem_of_mem_filter ha)) (hmem hb) hid
  · refine ((perm_insertionSort _ _).filter _).trans
      (.trans (.of_eq ?_) (perm_insertionSort _ _).symm)
    rw [filter_filter]
    refine filter_congr fun m _ => Bool.eq_iff_iff.mpr ?_
    have hlt := lt_of_mem_unlimited hlast
    simp only [conditions, Bool.and_eq_true, Option.all_some, decide_eq_true_eq, Option.all_eq_true]
    exact ⟨fun h => ⟨h.2.1, h.1⟩, fun h => ⟨h.2, h.1, fun t ht => h.2.trans (hlt t ht)⟩⟩

theorem visits_iff_of_more {page : List (Message β)} {next : ℤ}
    (hget : getSearch store ast { opts with cursor := cursor } = some ⟨page, some next⟩) :
    Visits store ast opts cursor visited ↔ ∃ rest, visited = page ++ rest
      ∧ Visits store ast opts (some next) rest := by
  constructor
  · intro h
    cases h with
    | last h => rw [hget] at h; cases h
    | more h hrest =>
      rw [hget] at h
      cases h
      exact ⟨_, rfl, hrest⟩
  · rintro ⟨rest, rfl, hrest⟩
    exact .more hget hrest

/-- A walk begins with a page of the rows before its cursor, and visits only such messages. -/
theorem Visits.page (h : Visits store ast opts cursor visited) :
    (∀ t ∈ cursor, parseCursor t = some t ∧ ∀ m ∈ visited, m.internalDate < t)
      ∧ (unlimited store ast opts cursor).take opts.limit <+: visited := by
  have hpage : ∀ {cursor : Option ℤ}, ∀ m ∈ (unlimited store ast opts cursor).take opts.limit,
      ∀ t ∈ cursor, m.internalDate < t := fun m hm => lt_of_mem_unlimited (mem_of_mem_take hm)
  induction h with
  | last h =>
    obtain ⟨hok, rfl, _⟩ := getSearch_eq_some.mp h
    exact ⟨fun t ht => ⟨hok t ht, fun m hm => hpage m hm t ht⟩, prefix_refl _⟩
  | more h _ ih =>
    obtain ⟨hok, rfl, hnext⟩ := getSearch_eq_some.mp h
    split_ifs at hnext
    obtain ⟨last, hlast, rfl⟩ := Option.map_eq_some_iff.mp hnext.symm
    refine ⟨fun t ht => ⟨hok t ht, fun m hm => ?_⟩, prefix_append _ _⟩
    cases mem_append.mp hm with
    | inl hm => exact hpage m hm t ht
    | inr hm => exact ((ih.1 _ rfl).2 m hm).trans (hpage last (mem_of_getLast? hlast) t ht)

variable (hids : (store.map Message.id).Nodup) (hrows : unlimited store ast opts cursor = rows)
include hids hrows

theorem unlimited_last (hlast : (rows.take opts.limit).getLast? = some last) :
    unlimited store ast opts (some last.internalDate)
      = (rows.take opts.limit).filter (fun m => m.internalDate < last.internalDate)
        ++ (rows.drop opts.limit).filter (fun m => m.internalDate < last.internalDate) := by
  subst hrows
  rw [← filter_unlimited hids (mem_of_mem_take (mem_of_getLast? hlast)), ← filter_append,
    take_append_drop]

/-- If the walk behind a page visits just the rows that did not fit, then the page is cut
by date: the next page would begin with a row that is earlier than the last one. -/
theorem DateCut.of_visits (hlimit : 1 ≤ opts.limit)
    (hlast : (rows.take opts.limit).getLast? = some last)
    (h : Visits store ast opts (some last.internalDate) (rows.drop opts.limit)) :
    DateCut opts.limit rows last := by
  obtain ⟨hbefore, hfirst⟩ := h.page
  refine ⟨(hbefore _ rfl).1, fun m hm => ?_, (hbefore _ rfl).2⟩
  by_contra hearly
  have hnext := unlimited_last hids hrows hlast
  cases hagain : (rows.take opts.limit).filter (·.internalDate < last.internalDate) with
  | nil => exact filter_eq_nil_iff.mp hagain m hm (by simpa using hearly)
  | cons x xs =>
    have hx : x ∈ rows.drop opts.limit := by
      refine hfirst.subset ?_
      rw [hnext, hagain, cons_append, take_cons hlimit]
      exact mem_cons_self
    have hx' := mem_of_mem_filter (hagain ▸ mem_cons_self : x ∈ _)
    have hnodup : rows.Nodup :=
      hrows ▸ (perm_insertionSort _ _).nodup_iff.mpr ((List.Nodup.of_map _ hids).filter _)
    exact disjoint_take_drop hnodup le_rfl hx' hx

/-- **The walk.** Page by page, from any cursor the server accepts. -/
theorem visits_iff (hlimit : 1 ≤ opts.limit) (hok : ∀ t ∈ cursor, parseCursor t = some t) :
    Visits store ast opts cursor rows ↔ DateCuts opts.limit rows := by
  induction hn : rows.length using Nat.strong_induction_on generalizing cursor rows with
  | _ n ih =>
    by_cases hlong : opts.limit < rows.length
    · obtain ⟨last, hlast⟩ : ∃ last, (rows.take opts.limit).getLast? = some last := by
        rw [← Option.isSome_iff_exists, getLast?_isSome, ← length_pos_iff, length_take]
        omega
      have hget : getSearch store ast { opts with cursor := cursor }
          = some ⟨rows.take opts.limit, some last.internalDate⟩ := by
        rw [getSearch_eq_some, hrows, if_pos hlong, hlast]
        exact ⟨hok, rfl, rfl⟩
      -- Where the page is cut by date, the rows behind its cursor are those that did not fit.
      have hbehind (hcut : DateCut opts.limit rows last) :
          Visits store ast opts (some last.internalDate) (rows.drop opts.limit)
            ↔ DateCuts opts.limit (rows.drop opts.limit) := by
        have hnext := unlimited_last hids hrows hlast
        rw [filter_eq_nil_iff.mpr (by simpa using hcut.page),
          filter_eq_self.mpr (by simpa using hcut.rest),
          nil_append] at hnext
        refine ih _ ?_ hnext (by simpa using hcut.cursor) rfl
        rw [length_drop]
        omega
      rw [visits_iff_of_more hget]
      constructor
      · rintro ⟨rest, hsplit, hrest⟩
        obtain rfl : rest = rows.drop opts.limit :=
          append_cancel_left (hsplit.symm.trans (take_append_drop _ _).symm)
        have hcut := DateCut.of_visits hids hrows hlimit hlast hrest
        exact .page hlast hcut ((hbehind hcut).mp hrest)
      · intro h
        refine ⟨_, (take_append_drop _ _).symm, ?_⟩
        cases h with
        | short h => exact absurd hlong h.not_gt
        | page hlast' hcut h =>
          cases hlast.symm.trans hlast'
          exact (hbehind hcut).mpr h
    · have hall : rows.length ≤ opts.limit := Nat.le_of_not_lt hlong
      refine ⟨fun _ => .short hall, fun _ => .last (getSearch_eq_some.mpr ⟨hok, ?_, ?_⟩)⟩
      · rw [hrows, take_of_length_le hall]
      · rw [hrows, if_neg hlong]

end

/-- **Search pages add up exactly where they are cut by date.** For every store, query and
limit: following `nextCursor` visits every message of the result once, in the order of the
unlimited result, if and only if every page but the last one ends in its earliest date,
after 1970 and before 10000, and all that follow are earlier. -/
theorem search_pages_add_up [LinearOrder ρ] (store : List (Message β))
    (hids : (store.map Message.id).Nodup)
    (ast : QueryAst β ρ) (opts : SearchOptions) (hlimit : 1 ≤ opts.limit) :
    Visits store ast opts none (unlimited store ast opts none)
      ↔ DateCuts opts.limit (unlimited store ast opts none) :=
  visits_iff hids rfl hlimit nofun

theorem search_pages_add_up_two :
    let store : List (Message Unit) := [⟨1, 1, 1, 1767225600000, ()⟩, ⟨2, 1, 1, 1767225600001, ()⟩]
    let ast : QueryAst Unit ℕ := ⟨fun _ => true, fun _ => 0⟩
    Visits store ast ⟨1, none, 1, none⟩ none store.reverse := by
  intro store ast
  refine (search_pages_add_up store (by decide) ast ⟨1, none, 1, none⟩ le_rfl).mpr ?_
  exact .page rfl ⟨by decide, by decide, by decide⟩ (.short (by decide))

/-- Two messages of one millisecond: the second page is empty, and the walk is over. -/
theorem search_pages_lose_a_tie :
    let store : List (Message Unit) := [⟨2, 1, 1, 1767225600000, ()⟩, ⟨1, 1, 1, 1767225600000, ()⟩]
    let ast : QueryAst Unit ℕ := ⟨fun _ => true, fun _ => 0⟩
    unlimited store ast ⟨1, none, 1, none⟩ none = store
      ∧ Visits store ast ⟨1, none, 1, none⟩ none (store.take 1)
        ∧ ¬ Visits store ast ⟨1, none, 1, none⟩ none store := by
  intro store ast
  have hmore : getSearch store ast ⟨1, none, 1, none⟩
      = some ⟨store.take 1, some 1767225600000⟩ := by decide
  have hlast : getSearch store ast ⟨1, none, 1, some 1767225600000⟩ = some ⟨[], none⟩ := by decide
  refine ⟨by decide, (visits_iff_of_more hmore).mpr ⟨[], rfl, .last hlast⟩, fun h => ?_⟩
  obtain ⟨rest, hsplit, hrest⟩ := (visits_iff_of_more hmore).mp h
  obtain rfl : _ = rest := (List.cons.inj hsplit).2
  exact absurd ((hrest.page.1 _ rfl).2 _ mem_cons_self) (lt_irrefl _)

end Postroom.Search
