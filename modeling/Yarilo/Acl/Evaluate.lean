import Mathlib.Data.Finset.SDiff
import Mathlib.Data.List.Sort
import Yarilo.Acl.Entry
import Yarilo.Library.Ladder

/-! # What a user may do

The entries that apply to a user are read in the order of their tiers, once for what is granted and
once for what is withheld. A global ACL is read on top of the local one: where it grants, its grants
replace the local ones, and as soon as it says anything its revocations replace the local ones.
-/

namespace Yarilo.Acl

open Library List Rung

/-- `anyone < authenticated < group= < owner < user= < group-override=` -/
def Identifier.tier : Identifier → ℕ
  | anyone => 0
  | authenticated => 1
  | group _ => 2
  | owner => 3
  | user _ => 4
  | groupOverride _ => 5

/-- Whether an entry with this identifier applies to somebody who is not the owner. -/
def Identifier.isMatch (user : Bytes) (groups : List Bytes) : Identifier → Bool
  | anyone => true
  | authenticated => true
  | owner => false
  | .user name => name = user
  | group name => name ∈ groups
  | groupOverride name => name ∈ groups

namespace Entry

def Applies (user : Bytes) (groups : List Bytes) (e : Entry) : Prop :=
  e.identifier.isMatch user groups = true

instance (user : Bytes) (groups : List Bytes) : DecidablePred (Applies user groups) :=
  fun e => inferInstanceAs (Decidable (e.identifier.isMatch user groups = true))

def tier (e : Entry) : ℕ := e.identifier.tier

end Entry

/-- The two masks of a user, whether any entry applied and whether a granting one did. -/
structure Masks where
  pos : Rights
  neg : Rights
  matched : Bool
  posMatched : Bool
deriving DecidableEq

/-- The two streams of the loop, each with its own tier boundary. -/
structure Streams where
  pos : Rung ℕ Right
  neg : Rung ℕ Right

def Streams.take (s : Streams) (e : Entry) : Streams :=
  if e.negative then { s with neg := s.neg.climb e.tier e.rights }
  else { s with pos := s.pos.climb e.tier e.rights }

namespace ACL

variable (acl : ACL) (user : Bytes) (groups : List Bytes)

/-- The entries that apply, in the order of their tiers. -/
def matching : List Entry :=
  (acl.filter (Entry.Applies user groups)).insertionSort fun a b => a.tier ≤ b.tier

def effectiveMasksSigned : Masks :=
  let matching := acl.matching user groups
  let streams := matching.foldl Streams.take ⟨start, start⟩
  { pos := streams.pos.value
    neg := streams.neg.value
    matched := matching ≠ []
    posMatched := streams.pos.tier.isSome }

def effective (isOwner : Bool) : Rights :=
  if isOwner then fullRights
  else
    let masks := acl.effectiveMasksSigned user groups
    masks.pos \ masks.neg

end ACL

def effectiveWithGlobal (localAcl globalAcl : ACL) (user : Bytes) (groups : List Bytes)
    (isOwner : Bool) : Rights :=
  if isOwner then fullRights
  else
    let l := localAcl.effectiveMasksSigned user groups
    let g := globalAcl.effectiveMasksSigned user groups
    if g.matched then (if g.posMatched then g.pos else l.pos) \ g.neg
    else l.pos \ l.neg

variable {r : Right}

namespace ACL

/-! ## The most specific entries decide -/

variable (acl : ACL) (user : Bytes) (groups : List Bytes)

/-- An entry of the sign applies, none of the sign that applies is more specific, and it names the
right. -/
def Decides (negative : Bool) (r : Right) : Prop :=
  ∃ e ∈ acl, e.Applies user groups ∧ e.negative = negative ∧ r ∈ e.rights ∧
    ∀ other ∈ acl, other.Applies user groups → other.negative = negative → other.tier ≤ e.tier

def Grants (r : Right) : Prop := acl.Decides user groups false r

def Withholds (r : Right) : Prop := acl.Decides user groups true r

/-- Some entry of the ACL applies to the user. -/
def Speaks : Prop := ∃ e ∈ acl, e.Applies user groups

/-- A granting entry of the ACL applies to the user. -/
def SpeaksFor : Prop := ∃ e ∈ acl, e.Applies user groups ∧ e.negative = false

instance (negative : Bool) (r : Right) : Decidable (acl.Decides user groups negative r) :=
  inferInstanceAs (Decidable (∃ e ∈ acl, e.Applies user groups ∧ e.negative = negative ∧
    r ∈ e.rights ∧ ∀ other ∈ acl, other.Applies user groups → other.negative = negative →
      other.tier ≤ e.tier))

instance (r : Right) : Decidable (acl.Grants user groups r) :=
  inferInstanceAs (Decidable (acl.Decides user groups false r))

instance (r : Right) : Decidable (acl.Withholds user groups r) :=
  inferInstanceAs (Decidable (acl.Decides user groups true r))

instance : Decidable (acl.Speaks user groups) :=
  inferInstanceAs (Decidable (∃ e ∈ acl, e.Applies user groups))

variable {acl user groups}

theorem mem_matching {e : Entry} : e ∈ acl.matching user groups ↔ e ∈ acl ∧ e.Applies user groups := by
  simp [matching, mem_insertionSort]

theorem matching_ordered : (acl.matching user groups).Pairwise fun a b => a.tier ≤ b.tier := by
  exact pairwise_insertionSort _ _

/-- The loop's two streams do not touch each other. -/
theorem foldl_take (l : List Entry) : l.foldl Streams.take ⟨start, start⟩ =
      ⟨climbAll Entry.tier Entry.rights (l.filter (·.negative = false)),
        climbAll Entry.tier Entry.rights (l.filter (·.negative = true))⟩ := by
  induction l using reverseRecOn with
  | nil => rfl
  | append_singleton l e ih =>
    rw [foldl_append, ih]
    cases sign : e.negative with
    | true => simp [Streams.take, sign, filter_append, climbAll_concat]
    | false => simp [Streams.take, sign, filter_append, climbAll_concat]

theorem mem_climbAll_matching (negative : Bool) (r : Right) : r ∈ (climbAll Entry.tier Entry.rights
        ((acl.matching user groups).filter (·.negative = negative))).value ↔
      acl.Decides user groups negative r := by
  rw [mem_climbAll (matching_ordered.filter _)]
  simp only [Rung.Highest, mem_filter, mem_matching, decide_eq_true_eq]
  constructor
  · rintro ⟨e, ⟨⟨⟨member, applies⟩, sign⟩, top⟩, inside⟩
    exact ⟨e, member, applies, sign, inside, fun other inAcl fits same =>
      top other ⟨⟨inAcl, fits⟩, same⟩⟩
  · rintro ⟨e, member, applies, sign, inside, top⟩
    exact ⟨e, ⟨⟨⟨member, applies⟩, sign⟩, fun other found =>
      top other found.1.1 found.1.2 found.2⟩, inside⟩

theorem mem_pos : r ∈ (acl.effectiveMasksSigned user groups).pos ↔ acl.Grants user groups r := by
  simp only [effectiveMasksSigned, foldl_take]
  exact mem_climbAll_matching false r

theorem mem_neg : r ∈ (acl.effectiveMasksSigned user groups).neg ↔ acl.Withholds user groups r := by
  simp only [effectiveMasksSigned, foldl_take]
  exact mem_climbAll_matching true r

theorem matched_iff : (acl.effectiveMasksSigned user groups).matched = true ↔ acl.Speaks user groups := by
  simp only [effectiveMasksSigned, decide_eq_true_eq]
  constructor
  · intro some
    obtain ⟨e, member⟩ := exists_mem_of_ne_nil _ some
    exact ⟨e, mem_matching.mp member⟩
  · rintro ⟨e, found⟩
    exact ne_nil_of_mem (mem_matching.mpr found)

theorem posMatched_iff :
    (acl.effectiveMasksSigned user groups).posMatched = true ↔ acl.SpeaksFor user groups := by
  simp only [effectiveMasksSigned, foldl_take, climbAll_tier, Option.isSome_map, getLast?_isSome]
  constructor
  · intro some
    obtain ⟨e, member⟩ := exists_mem_of_ne_nil _ some
    obtain ⟨found, sign⟩ := mem_filter.mp member
    obtain ⟨inAcl, applies⟩ := mem_matching.mp found
    exact ⟨e, inAcl, applies, by simpa using sign⟩
  · rintro ⟨e, inAcl, applies, sign⟩
    exact ne_nil_of_mem
      (mem_filter.mpr ⟨mem_matching.mpr ⟨inAcl, applies⟩, decide_eq_true sign⟩)

theorem mem_effective : r ∈ acl.effective user groups false ↔
      acl.Grants user groups r ∧ ¬acl.Withholds user groups r := by
  simp [effective, mem_pos, mem_neg]

end ACL

/-! ## The global layer -/

variable {localAcl globalAcl : ACL} {user : Bytes} {groups : List Bytes}

theorem effectiveWithGlobal_of_silent (silent : ¬globalAcl.Speaks user groups) :
    effectiveWithGlobal localAcl globalAcl user groups false = localAcl.effective user groups false := by
  simp only [effectiveWithGlobal, ACL.effective, Bool.false_eq_true, if_false]
  rw [if_neg (ACL.matched_iff.not.mpr silent)]

theorem mem_effectiveWithGlobal_of_granting (speaks : globalAcl.SpeaksFor user groups) :
    r ∈ effectiveWithGlobal localAcl globalAcl user groups false ↔
      globalAcl.Grants user groups r ∧ ¬globalAcl.Withholds user groups r := by
  have matched : globalAcl.Speaks user groups := by
    obtain ⟨e, member, applies, -⟩ := speaks
    exact ⟨e, member, applies⟩
  simp only [effectiveWithGlobal, Bool.false_eq_true, if_false]
  rw [if_pos (ACL.matched_iff.mpr matched), if_pos (ACL.posMatched_iff.mpr speaks),
    Finset.mem_sdiff, ACL.mem_pos, ACL.mem_neg]

/-- A global layer that only revokes keeps the local grants and drops the local revocations. -/
theorem mem_effectiveWithGlobal_of_revoking (speaks : globalAcl.Speaks user groups)
    (revoking : ¬globalAcl.SpeaksFor user groups) :
    r ∈ effectiveWithGlobal localAcl globalAcl user groups false ↔
      localAcl.Grants user groups r ∧ ¬globalAcl.Withholds user groups r := by
  simp only [effectiveWithGlobal, Bool.false_eq_true, if_false]
  rw [if_pos (ACL.matched_iff.mpr speaks), if_neg (ACL.posMatched_iff.not.mpr revoking),
    Finset.mem_sdiff, ACL.mem_pos, ACL.mem_neg]

open scoped Classical in
/-- The most specific entries decide, in whatever order they stand: the global grants if there is one
for the user, and the global revocations if there is any entry. -/
theorem effectiveWithGlobal_iff : r ∈ effectiveWithGlobal localAcl globalAcl user groups false ↔
      (if globalAcl.SpeaksFor user groups then globalAcl else localAcl).Grants user groups r ∧
        ¬(if globalAcl.Speaks user groups then globalAcl else localAcl).Withholds user groups r := by
  by_cases speaks : globalAcl.Speaks user groups
  · by_cases grants : globalAcl.SpeaksFor user groups
    · rw [mem_effectiveWithGlobal_of_granting grants, if_pos grants, if_pos speaks]
    · rw [mem_effectiveWithGlobal_of_revoking speaks grants, if_neg grants, if_pos speaks]
  · have mute : ¬globalAcl.SpeaksFor user groups :=
      fun ⟨e, member, applies, _⟩ => speaks ⟨e, member, applies⟩
    rw [effectiveWithGlobal_of_silent speaks, ACL.mem_effective, if_neg mute, if_neg speaks]

/-- Under a global ACL without grants a user keeps to the local rights exactly if the global ACL says
nothing of the user, or withholds itself whatever the local one both grants and withholds. -/
theorem revoking_global_narrows_iff (localAcl globalAcl : ACL) (user : Bytes) (groups : List Bytes)
    (revoking : ∀ e ∈ globalAcl, e.negative = true) :
    effectiveWithGlobal localAcl globalAcl user groups false ⊆
        localAcl.effective user groups false ↔
      ¬globalAcl.Speaks user groups ∨ ∀ r, localAcl.Grants user groups r →
        localAcl.Withholds user groups r → globalAcl.Withholds user groups r := by
  have noGrant : ¬globalAcl.SpeaksFor user groups := by
    rintro ⟨e, member, -, sign⟩
    rw [revoking e member] at sign
    cases sign
  by_cases speaks : globalAcl.Speaks user groups
  · simp only [Finset.subset_iff, mem_effectiveWithGlobal_of_revoking speaks noGrant,
      ACL.mem_effective, speaks, not_true_eq_false, false_or]
    constructor
    · intro narrow r grants withholds
      by_contra kept
      exact (narrow ⟨grants, kept⟩).2 withholds
    · rintro covered r ⟨grants, kept⟩
      exact ⟨grants, fun withholds => kept (covered r grants withholds)⟩
  · simp [effectiveWithGlobal_of_silent speaks, speaks]

/-- `user=alice lra`, `-user=alice a` -/
def aliceWithoutAdminister : ACL :=
  [⟨.user [97], {.lookup, .read, .administer}, false⟩, ⟨.user [97], {.administer}, true⟩]

/-- Here the global `-anyone sa` repeats what the local ACL withholds. -/
theorem revoking_global_narrows_repeated :
    effectiveWithGlobal aliceWithoutAdminister [⟨.anyone, {.writeSeen, .administer}, true⟩] [97] []
        false ⊆ aliceWithoutAdminister.effective [97] [] false := by
  refine (revoking_global_narrows_iff _ _ _ _ (by decide)).mpr (.inr ?_)
  decide

/-- The global `-anyone s` alone gives the right to administer back. -/
theorem revoking_global_grants_administer :
    Right.administer ∈ effectiveWithGlobal aliceWithoutAdminister [⟨.anyone, {.writeSeen}, true⟩]
        [97] [] false ∧
      Right.administer ∉ aliceWithoutAdminister.effective [97] [] false := by
  decide

end Yarilo.Acl
