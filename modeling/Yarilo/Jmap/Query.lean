import Yarilo.Library.Bytes
import Yarilo.Library.Sorting

/-! # Email/query

The folders of the scope are read one after the other, the messages that match are gathered, sorted by a
chain of comparators with the id as the last tie-break, and cut by the position and the limit. An id names
a message of the account while the hits are gathered by folder, so a message that two folders hold is a
hit twice.
-/

namespace Yarilo.Jmap

open Library List

structure Meta where
  uid : ℕ
  guid : Bytes
  internalDate : ℤ
  size : ℕ
  keywords : List Bytes
deriving DecidableEq

structure ScopeFolder where
  name : Bytes
  mailboxID : Bytes
  messages : List Meta
deriving DecidableEq

/-- What a filter evaluator decides: the conditions it cannot answer, and which messages match. -/
structure Filter where
  inMailbox : Option Bytes
  unsupported : Bool
  accepts : Meta → ScopeFolder → Bool

/-- One match, with what the sort needs. The id is the message's GUID. -/
structure QueryHit where
  id : Bytes
  received : ℤ
  size : ℕ
deriving DecidableEq

structure Comparator where
  property : Bytes
  isAscending : Option Bool
deriving DecidableEq

def propReceivedAt : Bytes := [114, 101, 99, 101, 105, 118, 101, 100, 65, 116]
def propSize : Bytes := [115, 105, 122, 101]

def Comparator.ascending (c : Comparator) : Bool := c.isAscending.getD true

inductive QueryError where
  | unsupportedFilter
  | unsupportedSort
deriving DecidableEq

structure QueryResponse where
  position : ℕ
  ids : List Bytes
  limit : Option ℕ
  total : ℕ
deriving DecidableEq

/-- Whether the first hit is less, and whether the two are equal. -/
def compareHits (a b : QueryHit) (property : Bytes) : Bool × Bool :=
  if property = propSize then (a.size < b.size, a.size = b.size)
  else (a.received < b.received, a.received = b.received)

def lessHits (a b : QueryHit) : List Comparator → Bool
  | [] => a.id < b.id
  | c :: rest =>
    let (less, equal) := compareHits a b c.property
    if equal then lessHits a b rest else if c.ascending then less else !less

/-- Newest first, unless the client asks for something else. -/
def orderOf (cmps : List Comparator) : List Comparator :=
  if cmps = [] then [⟨propReceivedAt, some false⟩] else cmps

def sortEmailHits (hits : List QueryHit) (cmps : List Comparator) : List QueryHit :=
  Sorter.insertion.sort (fun a b => lessHits a b (orderOf cmps)) hits

/-- The folders by name; a filter that names a mailbox reads only that one. -/
def queryScope (folders : List ScopeFolder) (inMailbox : Option Bytes) : List ScopeFolder :=
  (folders.insertionSort fun a b => a.name ≤ b.name).filter fun f => inMailbox.all (f.mailboxID = ·)

def matched (folders : List ScopeFolder) (filter : Filter) : List QueryHit :=
  (queryScope folders filter.inMailbox).flatMap fun f =>
    (f.messages.filter (filter.accepts · f)).map fun m => ⟨m.guid, m.internalDate, m.size⟩

def effectiveLimit (clientLimit : Option ℕ) (ceiling : ℕ) : ℕ :=
  if ceiling = 0 then clientLimit.getD 0
  else clientLimit.elim ceiling fun limit => if ceiling < limit then ceiling else limit

def checkEmailSort (cmps : List Comparator) : Bool :=
  cmps.all fun c => c.property = propReceivedAt ∨ c.property = propSize

def emailQuery (ceiling : ℕ) (folders : List ScopeFolder) (filter : Filter) (cmps : List Comparator)
    (position : ℤ) (limit : Option ℕ) : Except QueryError QueryResponse :=
  if filter.unsupported then .error .unsupportedFilter
  else if !checkEmailSort cmps then .error .unsupportedSort
  else
    let ids := (sortEmailHits (matched folders filter) cmps).map (·.id)
    -- A negative position counts from the end; both are cut off at the ends.
    let pos := min (if position < 0 then ids.length + position else position).toNat ids.length
    let applied := effectiveLimit limit ceiling
    let page := ids.drop pos
    .ok { position := pos
          ids := if 0 < applied ∧ applied < page.length then page.take applied else page
          limit := if 0 < applied then some applied else none
          total := ids.length }

/-! ## The order of the hits -/

def QueryHit.value (h : QueryHit) (property : Bytes) : ℤ := if property = propSize then h.size else h.received

theorem compareHits_eq (a b : QueryHit) (property : Bytes) :
    compareHits a b property = (decide (a.value property < b.value property),
      decide (a.value property = b.value property)) := by
  unfold compareHits QueryHit.value
  split <;> simp

/-- What a comparator sorts by, ascending. -/
def Comparator.key (c : Comparator) (h : QueryHit) : ℤ :=
  if c.ascending then h.value c.property else -h.value c.property

/-- The first hit may stand in front of the second: an earlier comparator puts it there, or none of them
tells the two apart and the ids do not put them the other way round. -/
def InOrder (a b : QueryHit) : List Comparator → Prop
  | [] => a.id ≤ b.id
  | c :: rest => c.key a < c.key b ∨ c.key a = c.key b ∧ InOrder a b rest

theorem lessHits_cons (a b : QueryHit) (c : Comparator) (rest : List Comparator) :
    lessHits a b (c :: rest) = true ↔ c.key a < c.key b ∨ c.key a = c.key b ∧ lessHits a b rest = true := by
  simp only [lessHits, compareHits_eq, Comparator.key]
  rcases lt_trichotomy (a.value c.property) (b.value c.property) with before | same | after
  · cases c.ascending <;> simp [before, before.ne, before.not_gt]
  · cases c.ascending <;> simp [same]
  · cases c.ascending <;> simp [after, after.ne', after.not_gt]

theorem lessHits_eq_false {a b : QueryHit} {cmps : List Comparator} :
    lessHits b a cmps = false ↔ InOrder a b cmps := by
  induction cmps with
  | nil => simp [lessHits, InOrder]
  | cons c rest ih =>
    rw [Bool.eq_false_iff, ne_eq, lessHits_cons, InOrder, ← ih, Bool.eq_false_iff]
    rcases lt_trichotomy (c.key a) (c.key b) with before | same | after
    · simp [before, before.not_gt, before.ne']
    · simp [same]
    · simp [after, after.not_gt, after.ne']

theorem InOrder.total (a b : QueryHit) (cmps : List Comparator) : InOrder a b cmps ∨ InOrder b a cmps := by
  induction cmps with
  | nil => exact List.le_total a.id b.id
  | cons c rest ih =>
    rcases lt_trichotomy (c.key a) (c.key b) with before | same | after
    · exact .inl (.inl before)
    · exact ih.imp (fun rest => .inr ⟨same, rest⟩) fun rest => .inr ⟨same.symm, rest⟩
    · exact .inr (.inl after)

theorem InOrder.trans {a b d : QueryHit} {cmps : List Comparator} (first : InOrder a b cmps)
    (second : InOrder b d cmps) : InOrder a d cmps := by
  induction cmps with
  | nil => exact List.le_trans first second
  | cons c rest ih =>
    rcases first with before | ⟨same, first⟩ <;> rcases second with later | ⟨same', second⟩
    · exact .inl (before.trans later)
    · exact .inl (before.trans_eq same')
    · exact .inl (same.trans_lt later)
    · exact .inr ⟨same.trans same', ih first second⟩

theorem lessHits_comparison (cmps : List Comparator) : Comparison fun a b => lessHits a b cmps where
  asymm {a b} less := by
    refine lessHits_eq_false.mpr ((InOrder.total a b cmps).resolve_right fun other => ?_)
    rw [lessHits_eq_false.mpr other] at less
    cases less
  through first second := lessHits_eq_false.mpr ((lessHits_eq_false.mp second).trans (lessHits_eq_false.mp first))

/-! ## Paging -/

/-- The pages at the positions `0`, `n`, `2 * n` and so on, one behind the other. -/
def pages (ceiling : ℕ) (folders : List ScopeFolder) (filter : Filter) (cmps : List Comparator) (n count : ℕ) :
    List Bytes :=
  (List.range count).flatMap fun k =>
    ((emailQuery ceiling folders filter cmps (k * n : ℕ) (some n)).toOption.map (·.ids)).getD []

section Paging

variable {ceiling n : ℕ} {folders : List ScopeFolder} {filter : Filter} {cmps : List Comparator}

theorem flatMap_range_pages (l : List Bytes) (n count : ℕ) :
    (List.range count).flatMap (fun k => (l.drop (k * n)).take n) = l.take (count * n) := by
  induction count with
  | zero => simp
  | succ count ih =>
    rw [range_succ, flatMap_append, ih, Nat.succ_mul, take_add]
    simp

section

variable (supported : filter.unsupported = false) (accepted : checkEmailSort cmps = true) (some_ : 0 < n)
  (below : ceiling = 0 ∨ n ≤ ceiling)

include supported accepted some_ below

/-- A page of an accepted query. -/
theorem emailQuery_page (folders : List ScopeFolder) (k : ℕ) :
    ∃ r, emailQuery ceiling folders filter cmps (k * n : ℕ) (some n) = .ok r ∧
      r.ids = (((sortEmailHits (matched folders filter) cmps).map (·.id)).drop (k * n)).take n ∧
      r.total = (matched folders filter).length := by
  have applied : effectiveLimit (some n) ceiling = n := by
    simp only [effectiveLimit, Option.getD_some, Option.elim_some]
    split
    · rfl
    · exact if_neg (by omega)
  have total : (sortEmailHits (matched folders filter) cmps).length = (matched folders filter).length :=
    (Sorter.insertion.perm _ _).length_eq
  have forward : ¬((k * n : ℕ) : ℤ) < 0 := by omega
  simp only [emailQuery, supported, accepted, applied, forward, some_, if_false, Bool.not_true,
    Bool.false_eq_true,
    Int.toNat_natCast, true_and, length_map]
  refine ⟨_, rfl, ?_, total⟩
  have cut : ((sortEmailHits (matched folders filter) cmps).map (·.id)).drop
      (min (k * n) (sortEmailHits (matched folders filter) cmps).length) =
      ((sortEmailHits (matched folders filter) cmps).map (·.id)).drop (k * n) := by
    rcases le_total (k * n) (sortEmailHits (matched folders filter) cmps).length with within | beyond
    · rw [min_eq_left within]
    · rw [min_eq_right beyond, drop_of_length_le (by simp), drop_of_length_le (by simpa using beyond)]
  rw [cut]
  split
  · rfl
  · next fits => exact (take_of_length_le (by simpa using fits)).symm

theorem pages_eq {count : ℕ} (enough : (matched folders filter).length ≤ count * n) :
    pages ceiling folders filter cmps n count = (sortEmailHits (matched folders filter) cmps).map (·.id) := by
  have each : ∀ k, ((emailQuery ceiling folders filter cmps (k * n : ℕ)
      (some n)).toOption.map (·.ids)).getD [] =
      (((sortEmailHits (matched folders filter) cmps).map (·.id)).drop (k * n)).take n := by
    intro k
    obtain ⟨r, ok, ids, -⟩ := emailQuery_page supported accepted some_ below folders k
    rw [ok, ← ids]
    rfl
  have total : (sortEmailHits (matched folders filter) cmps).length = (matched folders filter).length :=
    (Sorter.insertion.perm _ _).length_eq
  simp only [pages, each]
  rw [flatMap_range_pages, take_of_length_le (by simpa [total] using enough)]

end

end Paging

/-- Paging through an accepted query gives each id of a match once, in the order asked for and as many as
every page says, exactly when no two matches share their id. -/
theorem paging_visits_once_iff (ceiling n : ℕ) (folders : List ScopeFolder) (filter : Filter)
    (cmps : List Comparator) (supported : filter.unsupported = false) (accepted : checkEmailSort cmps = true)
    (some_ : 1 ≤ n) (below : ceiling = 0 ∨ n ≤ ceiling) (count : ℕ)
    (enough : (matched folders filter).length ≤ count * n) :
    ((∀ id, (pages ceiling folders filter cmps n count).count id =
          if id ∈ (matched folders filter).map (·.id) then 1 else 0) ∧
        (∀ k r, emailQuery ceiling folders filter cmps (k * n : ℕ) (some n) = .ok r →
          r.total = (pages ceiling folders filter cmps n count).length) ∧
        ∃ hits : List QueryHit, hits.Perm (matched folders filter) ∧
          hits.map (·.id) = pages ceiling folders filter cmps n count ∧
          hits.Pairwise fun a b => InOrder a b (orderOf cmps)) ↔
      ((matched folders filter).map (·.id)).Nodup := by
  have perm : (sortEmailHits (matched folders filter) cmps).Perm (matched folders filter) :=
    Sorter.insertion.perm _ _
  rw [pages_eq supported accepted some_ below enough]
  constructor
  · rintro ⟨once, -⟩
    rw [← (perm.map (·.id)).nodup_iff, nodup_iff_count_le_one]
    intro id
    rw [once]
    split <;> omega
  · intro distinct
    refine ⟨fun id => ?_, fun k r answer => ?_, _, perm, rfl, ?_⟩
    · rw [(perm.map (·.id)).count_eq]
      split
      · next member => exact count_eq_one_of_mem distinct member
      · next absent => exact count_eq_zero_of_not_mem absent
    · obtain ⟨r', ok, -, total⟩ := emailQuery_page supported accepted some_ below folders k
      cases ok.symm.trans answer
      rw [total, length_map, perm.length_eq]
    · exact (Sorter.insertion.ordered (lessHits_comparison _) _).imp lessHits_eq_false.mp

def everything : Filter := ⟨none, false, fun _ _ => true⟩

/-- Two messages in a folder are paged one by one. -/
theorem paging_visits_once_iff_two :
    pages 0 [⟨[97], [1], [⟨1, [7], 0, 5, []⟩, ⟨2, [8], 1, 5, []⟩]⟩] everything [] 1 2 = [[8], [7]] ∧
      ∀ id, (pages 0 [⟨[97], [1], [⟨1, [7], 0, 5, []⟩, ⟨2, [8], 1, 5, []⟩]⟩] everything [] 1 2).count id =
        if id ∈ (matched [⟨[97], [1], [⟨1, [7], 0, 5, []⟩, ⟨2, [8], 1, 5, []⟩]⟩] everything).map (·.id)
          then 1 else 0 :=
  ⟨by decide, ((paging_visits_once_iff 0 1 _ everything [] rfl rfl le_rfl (.inl rfl)
    2 (by decide)).mpr (by decide)).1⟩

/-- A message in two folders is one id and two hits: paging gives the id twice, and the total is two. -/
theorem copied_message_paged_twice :
    pages 0 [⟨[97], [1], [⟨1, [7], 0, 5, []⟩]⟩, ⟨[98], [2], [⟨1, [7], 0, 5, []⟩]⟩] everything [] 1 2 =
      [[7], [7]] ∧
      (emailQuery 0 [⟨[97], [1], [⟨1, [7], 0, 5, []⟩]⟩, ⟨[98], [2], [⟨1, [7], 0, 5, []⟩]⟩] everything []
        0 (some 1)).toOption.map
        (·.total) = some 2 := by
  decide

end Yarilo.Jmap
