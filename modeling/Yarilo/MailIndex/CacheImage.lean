import Yarilo.MailIndex.CacheFile

/-! # A cache file as a list of blocks

Behind its header the file is a row of tables and records. Only the link word of a table is ever
written again. A handle with a preloaded copy therefore sees the same blocks as the file has, some
of them with an older link.
-/

namespace Yarilo.MailIndex

open Library List Option

inductive Block where
  | table (next : ℕ) (fields : List CacheField)
  | record (prev : UInt32) (body : Bytes)

variable {fields : List CacheField} {b : Block} {off pos next old other : ℕ} {head : Bytes}
  {seen under : List Block}

namespace Block

def bytes : Block → Bytes
  | .table next fields => putLe 4 (linkWord next) ++ tableRest fields
  | .record prev body => put32 prev ++ (putLe 4 (8 + body.length) ++ body)

def size (b : Block) : ℕ := b.bytes.length

/-- What the writers keep: a table can be decoded and its link packed, a record is not too long. -/
def Good : Block → Prop
  | .table next fields => next < 2 ^ 30 ∧ next % 4 = 0 ∧ fields ≠ [] ∧
      (∀ fl ∈ fields, fl.Named) ∧ tableSpan fields < 2 ^ 32
  | .record _ body => 8 + body.length ≤ 2 ^ 26 ∧ body.length % 4 = 0

/-- The block with another link. -/
def relinked (next : ℕ) : Block → Block
  | .table _ fields => .table next fields
  | .record prev body => .record prev body

/-- The same block but for its link. -/
def Alike (b b' : Block) : Prop := b.relinked 0 = b'.relinked 0

theorem size_table (small : tableSpan fields < 2 ^ 32) (next : ℕ) :
    (table next fields).size = tableSpan fields := by
  have room := tableSpan_ge fields
  rw [size, bytes, tableRest_eq small]
  simp only [length_append, length_putLe, length_tableBody]
  omega

theorem size_record (prev : UInt32) (body : Bytes) : (record prev body).size = 8 + body.length := by
  rw [size, bytes]
  simp only [length_append, length_putLe, length_put32]
  omega

theorem size_relinked (b : Block) (next : ℕ) : (b.relinked next).size = b.size := by
  cases b with
  | table old fields => simp [relinked, size, bytes]
  | record prev body => rfl

theorem Alike.refl (b : Block) : b.Alike b := rfl

variable {b' : Block}

theorem Alike.size_eq (alike : b.Alike b') : b.size = b'.size := by
  rw [← b.size_relinked 0, alike, b'.size_relinked]

theorem Alike.relinked (alike : b.Alike b') (next : ℕ) : b.Alike (b'.relinked next) := by
  cases b' with
  | table old fields => exact alike
  | record prev body => exact alike

theorem Good.size_mod (good : b.Good) : b.size % 4 = 0 := by
  cases b with
  | table next fields =>
    rw [size_table good.2.2.2.2]
    exact tableSpan_mod fields
  | record prev body =>
    rw [size_record]
    have aligned := good.2
    omega

theorem four_le_size (b : Block) : 4 ≤ b.size := by
  cases b with
  | table next fields => simp [size, bytes]
  | record prev body => simp [size, bytes]

end Block

/-! ## Rows of blocks -/

def blockBytes (blocks : List Block) : Bytes := blocks.flatMap Block.bytes

/-- The block that starts at `off` in a row that starts at `pos`. -/
def blockAt (off : ℕ) : (pos : ℕ) → List Block → Option Block
  | _, [] => none
  | pos, b :: rest => if pos = off then some b else blockAt off (pos + b.size) rest

/-- The row with another link in the table at `off`. -/
def relink (off next : ℕ) : (pos : ℕ) → List Block → List Block
  | _, [] => []
  | pos, b :: rest =>
    (if pos = off then b.relinked next else b) :: relink off next (pos + b.size) rest

theorem blockBytes_append (blocks more : List Block) :
    blockBytes (blocks ++ more) = blockBytes blocks ++ blockBytes more := List.flatMap_append

theorem length_blockBytes_cons (b : Block) (rest : List Block) :
    (blockBytes (b :: rest)).length = b.size + (blockBytes rest).length := by
  rw [blockBytes, flatMap_cons, length_append]
  rfl

section Rows

variable {blocks : List Block}

theorem length_blockBytes_mod (good : ∀ b ∈ blocks, b.Good) : (blockBytes blocks).length % 4 = 0 := by
  induction blocks with
  | nil => rfl
  | cons b rest ih =>
    have head := (good b (by simp)).size_mod
    have others := ih fun other member => good other (by simp [member])
    rw [length_blockBytes_cons]
    omega

/-- A block that is found stands between two stretches of the row. -/
theorem blockAt_split (found : blockAt off pos blocks = some b) :
    ∃ before after, blocks = before ++ b :: after ∧ off = pos + (blockBytes before).length := by
  induction blocks generalizing pos with
  | nil => cases found
  | cons head rest ih =>
    rw [blockAt] at found
    split at found
    · rename_i here
      rw [← some.inj found]
      exact ⟨[], rest, rfl, here.symm⟩
    obtain ⟨before, after, rfl, offset⟩ := ih found
    refine ⟨head :: before, after, rfl, ?_⟩
    rw [length_blockBytes_cons, offset, Nat.add_assoc]

theorem blockAt_append (off pos : ℕ) (blocks more : List Block) : blockAt off pos (blocks ++ more) =
      (blockAt off pos blocks).or (blockAt off (pos + (blockBytes blocks).length) more) := by
  induction blocks generalizing pos with
  | nil => rfl
  | cons b rest ih =>
    rw [cons_append, blockAt, blockAt, length_blockBytes_cons, ← Nat.add_assoc]
    split
    · rfl
    · exact ih _

theorem blockAt_bounds (found : blockAt off pos blocks = some b) :
    b ∈ blocks ∧ pos ≤ off ∧ off + b.size ≤ pos + (blockBytes blocks).length := by
  obtain ⟨before, after, rfl, rfl⟩ := blockAt_split found
  refine ⟨by simp, Nat.le_add_right _ _, ?_⟩
  rw [blockBytes_append, length_append, length_blockBytes_cons]
  omega

theorem relink_append (off next pos : ℕ) (blocks more : List Block) : relink off next pos (blocks ++ more) =
      relink off next pos blocks ++ relink off next (pos + (blockBytes blocks).length) more := by
  induction blocks generalizing pos with
  | nil => rfl
  | cons b rest ih =>
    rw [cons_append, relink, relink, ih, length_blockBytes_cons, ← Nat.add_assoc]
    rfl

theorem blockAt_outside
    (outside : off < pos ∨ pos + (blockBytes blocks).length ≤ off) : blockAt off pos blocks = none := by
  refine eq_none_iff_forall_ne_some.mpr fun b found => ?_
  have bounds := (blockAt_bounds found).2
  have positive := b.four_le_size
  omega

theorem relink_absent (next : ℕ) (absent : blockAt off pos blocks = none) :
    relink off next pos blocks = blocks := by
  induction blocks generalizing pos with
  | nil => rfl
  | cons b rest ih =>
    rw [blockAt] at absent
    split at absent
    · cases absent
    · rw [relink, if_neg ‹_›, ih absent]

theorem blockAt_relink (off other next pos : ℕ) (blocks : List Block) :
    blockAt other pos (relink off next pos blocks) =
      (blockAt other pos blocks).map fun b => if other = off then b.relinked next else b := by
  induction blocks generalizing pos with
  | nil => rfl
  | cons b rest ih =>
    have same : (if pos = off then b.relinked next else b).size = b.size := by
      split
      · exact b.size_relinked next
      · rfl
    rw [relink, blockAt, blockAt, same]
    by_cases here : pos = other
    · subst here
      simp
    · rw [if_neg here, if_neg here, ih]

theorem Block.Good.relinked (good : b.Good) (packed : next < 2 ^ 30) (aligned : next % 4 = 0) :
    (b.relinked next).Good := by
  cases b with
  | table old fields => exact ⟨packed, aligned, good.2.2⟩
  | record prev body => exact good

theorem relink_good (good : ∀ b ∈ blocks, b.Good) (packed : next < 2 ^ 30)
    (aligned : next % 4 = 0) : ∀ b ∈ relink off next pos blocks, b.Good := by
  induction blocks generalizing pos with
  | nil => exact good
  | cons head rest ih =>
    have others : ∀ b ∈ relink off next (pos + head.size) rest, b.Good :=
      ih fun b member => good b (by simp [member])
    refine forall_mem_cons.mpr ⟨?_, others⟩
    split
    · exact (good head (by simp)).relinked packed aligned
    · exact good head (by simp)

/-- Writing the packed link over a table's first word relinks it. -/
theorem blit_relink (found : blockAt off head.length blocks = some (.table old fields)) :
    blit off (putLe 4 (linkWord next)) (head ++ blockBytes blocks) =
      head ++ blockBytes (relink off next head.length blocks) := by
  obtain ⟨before, after, rfl, rfl⟩ := blockAt_split found
  have size := (Block.table old fields).four_le_size
  rw [relink_append, relink_absent next (blockAt_outside (.inr le_rfl)), relink, if_pos rfl,
    relink_absent next (blockAt_outside (.inl (by omega)))]
  have write := blit_append (head ++ blockBytes before) (putLe 4 (linkWord next))
    (putLe 4 (linkWord old) ++ (tableRest fields ++ blockBytes after))
  rw [length_append, length_putLe, drop_left' (length_putLe _ _)] at write
  simpa [blockBytes, Block.relinked, Block.bytes] using write

/-- Any part of a block, cut out of the file where the block stands. -/
theorem slice_block {i length : ℕ}
    (found : blockAt off head.length blocks = some b) (inside : i + length ≤ b.size) :
    slice (off + i) length (head ++ blockBytes blocks) = slice i length b.bytes := by
  obtain ⟨before, after, rfl, rfl⟩ := blockAt_split found
  have bytes : head ++ blockBytes (before ++ b :: after) =
      (head ++ blockBytes before) ++ (b.bytes ++ blockBytes after) := by
    simp [blockBytes]
  rw [bytes, slice, slice, ← length_append, ← drop_drop, drop_left' rfl,
    drop_append_of_le_length (Nat.le_of_add_right_le inside), take_append_of_le_length]
  rw [length_drop]
  exact Nat.le_sub_of_add_le' inside

end Rows

/-! ## What a handle sees -/

/-- The blocks of a file: those inside the copy as the copy has them and as the file has them, and
those behind it. Without a copy all are behind it. -/
structure Image where
  seen : List Block
  under : List Block
  fresh : List Block

namespace Image

/-- The blocks of the file. -/
def blocks (img : Image) : List Block := img.under ++ img.fresh

/-- The blocks as the handle sees them. -/
def view (img : Image) : List Block := img.seen ++ img.fresh

def push (img : Image) (b : Block) : Image := { img with fresh := img.fresh ++ [b] }

/-- A new link is seen only behind the copy. -/
def relink (img : Image) (off next : ℕ) : Image where
  seen := img.seen
  under := MailIndex.relink off next cacheHeaderSize img.under
  fresh := MailIndex.relink off next (cacheHeaderSize + (blockBytes img.under).length) img.fresh

@[simp] theorem blocks_push (img : Image) (b : Block) : (img.push b).blocks = img.blocks ++ [b] :=
  (List.append_assoc ..).symm

@[simp] theorem view_push (img : Image) (b : Block) : (img.push b).view = img.view ++ [b] :=
  (List.append_assoc ..).symm

theorem blocks_relink (img : Image) (off next : ℕ) :
    (img.relink off next).blocks = MailIndex.relink off next cacheHeaderSize img.blocks :=
  (relink_append ..).symm

end Image

/-- The file and the handle's copy are written out from the image. -/
structure CacheFile.Shows (c : CacheFile) (file : Bytes) (img : Image) : Prop where
  content : file = c.hdr.encode ++ blockBytes img.blocks
  copy : match c.snap with
    | none => img.seen = []
    | some snap => ∃ h : CacheHeader, snap = h.encode ++ blockBytes img.seen
  alike : List.Forall₂ Block.Alike img.seen img.under
  good : ∀ b ∈ img.seen ++ img.blocks, b.Good

section

variable (alike : List.Forall₂ Block.Alike seen under)

include alike

theorem length_alike : (blockBytes seen).length = (blockBytes under).length := by
  induction alike with
  | nil => rfl
  | cons same _ ih => rw [length_blockBytes_cons, length_blockBytes_cons, ih, same.size_eq]

theorem blockAt_alike (found : blockAt off pos under = some b) :
    ∃ b', blockAt off pos seen = some b' ∧ b'.Alike b := by
  induction alike generalizing pos with
  | nil => cases found
  | cons same _ ih =>
    rw [blockAt] at found ⊢
    split at found
    · rename_i here
      rw [if_pos here]
      exact ⟨_, rfl, some.inj found ▸ same⟩
    rename_i elsewhere
    rw [if_neg elsewhere, same.size_eq]
    exact ih found

theorem alike_relink (off next pos : ℕ) : List.Forall₂ Block.Alike seen (relink off next pos under) := by
  induction alike generalizing pos with
  | nil => exact .nil
  | cons same _ ih =>
    refine .cons ?_ (ih _)
    split
    · exact same.relinked next
    · exact same

end

namespace CacheFile.Shows

variable {c c' : CacheFile} {file : Bytes} {img : Image}

variable (shown : c.Shows file img)

include shown

theorem length_file : file.length = cacheHeaderSize + (blockBytes img.blocks).length := by
  rw [shown.content, length_append, c.hdr.length_encode]

theorem length_mod : file.length % 4 = 0 := by
  have blocks : (blockBytes img.blocks).length % 4 = 0 :=
    length_blockBytes_mod fun b member => shown.good b (by simp [member])
  have head : cacheHeaderSize % 4 = 0 := rfl
  rw [shown.length_file]
  omega

/-- A block of the file is seen, possibly with another link. -/
theorem blockAt_view (found : blockAt off cacheHeaderSize img.blocks = some b) :
    ∃ b', blockAt off cacheHeaderSize img.view = some b' ∧ b'.Alike b := by
  rw [Image.blocks, blockAt_append] at found
  rw [Image.view, blockAt_append, length_alike shown.alike]
  cases inner : blockAt off cacheHeaderSize img.under with
  | some held =>
    rw [inner, some_or] at found
    obtain ⟨b', seen, same⟩ := blockAt_alike shown.alike inner
    exact ⟨b', by rw [seen, some_or], some.inj found ▸ same⟩
  | none =>
    rw [inner, none_or] at found
    have behind := (blockAt_bounds found).2.1
    have unseen : blockAt off cacheHeaderSize img.seen = none :=
      blockAt_outside (.inr (by rwa [length_alike shown.alike]))
    exact ⟨b, by rw [unseen, none_or, found], .refl b⟩

/-- Reads inside a block give what the handle sees of it. -/
theorem readAt_view (found : blockAt off cacheHeaderSize img.view = some b) (i length : ℕ)
    (inside : i + length ≤ b.size) : c.readAt file (off + i) length = some (slice i length b.bytes) := by
  have copy := shown.copy
  rw [Image.view, blockAt_append] at found
  cases seen : blockAt off cacheHeaderSize img.seen with
  | some held =>
    rw [seen, some_or] at found
    cases found
    cases snapped : c.snap with
    | none =>
      rw [snapped] at copy
      rw [copy] at seen
      cases seen
    | some snap =>
      rw [snapped] at copy
      obtain ⟨h, rfl⟩ := copy
      have bound := (blockAt_bounds seen).2.2
      rw [← h.length_encode] at seen bound
      unfold readAt
      rw [snapped]
      simp only
      rw [if_pos (by rw [length_append]; omega), slice_block seen inside]
  | none =>
    rw [seen, none_or, length_alike shown.alike] at found
    have behind := blockAt_bounds found
    have held : blockAt off cacheHeaderSize img.blocks = some b := by
      rw [Image.blocks, blockAt_append, blockAt_outside (.inr behind.2.1), none_or, found]
    have part : slice (off + i) length file = slice i length b.bytes := by
      rw [← c.hdr.length_encode] at held
      rw [shown.content, slice_block held inside]
    have whole : readFile file (off + i) length = some (slice i length b.bytes) := by
      have bound := (blockAt_bounds held).2.2
      rw [readFile, if_pos (.inr (by rw [shown.length_file]; omega)), part]
    cases snapped : c.snap with
    | none => rw [readAt, snapped, whole]
    | some snap =>
      rw [snapped] at copy
      obtain ⟨h, rfl⟩ := copy
      unfold readAt
      rw [snapped]
      simp only
      split
      · -- the block starts behind the copy, so only an empty read can end inside it
        rename_i inCopy
        rw [length_append, h.length_encode, length_alike shown.alike] at inCopy
        obtain rfl : length = 0 := by omega
        simp [slice]
      · exact whole

/-! ### Writes -/

theorem push (good : b.Good) : c.Shows (file ++ b.bytes) (img.push b) where
  content := by
    rw [shown.content, Image.blocks_push, blockBytes_append, append_assoc]
    simp [blockBytes]
  copy := shown.copy
  alike := shown.alike
  good := by
    rw [Image.blocks_push, ← append_assoc]
    exact forall_mem_concat shown.good good

theorem writeHeader (hdr : CacheHeader) :
    CacheFile.Shows { c with hdr := hdr } (blit 0 hdr.encode file) img where
  content := by
    have write := blit_append [] hdr.encode file
    rw [nil_append, nil_append, length_nil] at write
    rw [write, hdr.length_encode, ← c.hdr.length_encode, shown.content, drop_left' rfl]
  copy := shown.copy
  alike := shown.alike
  good := shown.good

theorem relink (found : blockAt off cacheHeaderSize img.blocks = some (.table old fields))
    (packed : next < 2 ^ 30) (aligned : next % 4 = 0) :
    c.Shows (blit off (putLe 4 (linkWord next)) file) (img.relink off next) where
  content := by
    rw [← c.hdr.length_encode] at found
    rw [shown.content, blit_relink found, Image.blocks_relink, c.hdr.length_encode]
  copy := shown.copy
  alike := alike_relink shown.alike off next _
  good := by
    intro b member
    rw [Image.blocks_relink] at member
    rcases mem_append.mp member with member | member
    · exact shown.good b (by simp [Image.relink] at member; simp [member])
    · exact relink_good (fun b member => shown.good b (by simp [member])) packed aligned b member

theorem setFields (fields : List CacheField) (byName : Bytes → Option UInt32) :
    CacheFile.Shows { c with fields := fields, byName := byName } file img :=
  ⟨shown.content, shown.copy, shown.alike, shown.good⟩

/-- A handle without a copy sees the file as it is. -/
theorem uncopied (hdr : c'.hdr = c.hdr) (none : c'.snap = none) :
    c'.Shows file { seen := [], under := [], fresh := img.blocks } where
  content := by
    rw [hdr]
    exact shown.content
  copy := by rw [none]
  alike := .nil
  good := fun b member => shown.good b (mem_append_right _ member)

/-- So does a handle whose copy was made just now. -/
theorem copied (hdr : c'.hdr = c.hdr) (some : c'.snap = some file) :
    c'.Shows file { seen := img.blocks, under := img.blocks, fresh := [] } where
  content := by
    rw [hdr, Image.blocks, append_nil]
    exact shown.content
  copy := by
    rw [some]
    exact ⟨c.hdr, shown.content⟩
  alike := forall₂_same.mpr fun b _ => .refl b
  good := by
    intro b member
    have whole : (Image.mk img.blocks img.blocks []).blocks = img.blocks := append_nil _
    rw [whole] at member
    have held : b ∈ img.blocks := (mem_append.mp member).elim id id
    exact shown.good b (mem_append_right _ held)

end CacheFile.Shows

/-! ## The chain of tables -/

/-- The walk over the tables of the file from the one at the offset ends with these fields. -/
inductive Chain (blocks : List Block) : ℕ → List CacheField → Prop
  | last {off : ℕ} {fields : List CacheField}
      (found : blockAt off cacheHeaderSize blocks = some (.table 0 fields)) : Chain blocks off fields
  | link {off next : ℕ} {older fields : List CacheField}
      (found : blockAt off cacheHeaderSize blocks = some (.table next older)) (later : off < next)
      (rest : Chain blocks next fields) : Chain blocks off fields

/-- The walk the handle sees ends at `tail`. Before that the handle sees the links the file has. -/
inductive Visible (img : Image) : ℕ → ℕ → Prop
  | last {off next : ℕ} {fields : List CacheField}
      (seen : blockAt off cacheHeaderSize img.view = some (.table 0 fields))
      (found : blockAt off cacheHeaderSize img.blocks = some (.table next fields)) :
      Visible img off off
  | link {off next tail : ℕ} {older : List CacheField}
      (seen : blockAt off cacheHeaderSize img.view = some (.table next older))
      (found : blockAt off cacheHeaderSize img.blocks = some (.table next older))
      (later : off < next) (rest : Visible img next tail) : Visible img off tail

variable {img : Image} {new tail : ℕ} {merged : List CacheField}

/-- Where the handle sees the file as it is, it sees the end of the chain. -/
theorem Chain.visible (same : img.view = img.blocks) (chain : Chain img.blocks off fields) :
    ∃ tail, Visible img off tail := by
  induction chain with
  | last found => exact ⟨_, .last (same ▸ found) found⟩
  | link found later _ ih =>
    obtain ⟨tail, rest⟩ := ih
    exact ⟨tail, .link (same ▸ found) found later rest⟩

theorem Visible.le (visible : Visible img off tail) : off ≤ tail := by
  induction visible with
  | last _ _ => exact le_rfl
  | link _ _ later _ ih => omega

/-- The walk ends at a table of the file. -/
theorem Visible.table (visible : Visible img off tail) :
    ∃ next fields, blockAt tail cacheHeaderSize img.blocks = some (.table next fields) := by
  induction visible with
  | last _ found => exact ⟨_, _, found⟩
  | link _ _ _ _ ih => exact ih

theorem blockAt_push {blocks : List Block} (new : Block) (found : blockAt off pos blocks = some b) :
    blockAt off pos (blocks ++ [new]) = some b := by
  rw [blockAt_append, found, some_or]

theorem Chain.push {blocks : List Block} (chain : Chain blocks off fields) (new : Block) :
    Chain (blocks ++ [new]) off fields := by
  induction chain with
  | last found => exact .last (blockAt_push new found)
  | link found later _ ih => exact .link (blockAt_push new found) later ih

theorem Visible.push (visible : Visible img off tail) (new : Block) : Visible (img.push new) off tail := by
  induction visible with
  | last seen found =>
    exact .last (by rw [Image.view_push, blockAt_push new seen])
      (by rw [Image.blocks_push, blockAt_push new found])
  | link seen found later _ ih =>
    exact .link (by rw [Image.view_push, blockAt_push new seen])
      (by rw [Image.blocks_push, blockAt_push new found]) later ih

/-! ### A table linked behind the end that is seen -/

theorem blockAt_blocks_relink_of_ne (img : Image) (next : ℕ) (apart : other ≠ off) :
    blockAt other cacheHeaderSize (img.relink off next).blocks =
      blockAt other cacheHeaderSize img.blocks := by
  rw [Image.blocks_relink, blockAt_relink]
  simp [apart]

theorem blockAt_view_relink_of_ne (img : Image) (next : ℕ) (apart : other ≠ off)
    (alike : List.Forall₂ Block.Alike img.seen img.under) :
    blockAt other cacheHeaderSize (img.relink off next).view = blockAt other cacheHeaderSize img.view := by
  rw [Image.view, Image.view, blockAt_append, blockAt_append]
  simp only [Image.relink]
  rw [length_alike alike, blockAt_relink]
  simp [apart]

/-- The new link of the table at `off` is seen, or the table is seen as before. -/
theorem blockAt_view_relink (img : Image) (off next : ℕ)
    (alike : List.Forall₂ Block.Alike img.seen img.under) :
    blockAt off cacheHeaderSize (img.relink off next).view = blockAt off cacheHeaderSize img.view ∨
      blockAt off cacheHeaderSize (img.relink off next).view =
        (blockAt off cacheHeaderSize img.view).map (.relinked next) := by
  rw [Image.view, Image.view, blockAt_append, blockAt_append]
  simp only [Image.relink]
  cases blockAt off cacheHeaderSize img.seen with
  | some b => exact .inl rfl
  | none =>
    refine .inr ?_
    rw [none_or, none_or, length_alike alike, blockAt_relink]
    simp

section

variable (visible : Visible img off tail) (behind : tail < new)
  (found : blockAt new cacheHeaderSize img.blocks = some (.table 0 merged))

include visible behind found

/-- The file's chain runs through the table the handle took for the last one to the new table.
Tables linked behind it since the copy was made drop out. -/
theorem Visible.chain_relink : Chain (img.relink tail new).blocks off merged := by
  induction visible with
  | @last off next fields _ held =>
    have linked : blockAt off cacheHeaderSize (img.relink off new).blocks = some (.table new fields) := by
      rw [Image.blocks_relink, blockAt_relink, held]
      simp [Block.relinked]
    refine .link linked behind (.last ?_)
    rw [blockAt_blocks_relink_of_ne img new (by omega), found]
  | @link off next tail older _ held later rest ih =>
    have before := rest.le
    have found' := blockAt_blocks_relink_of_ne img new (by omega : off ≠ tail)
    exact .link (found'.trans held) later (ih behind)

theorem Visible.relink (alike : List.Forall₂ Block.Alike img.seen img.under)
    (seen : blockAt new cacheHeaderSize img.view = some (.table 0 merged)) :
    ∃ tail', Visible (img.relink tail new) off tail' := by
  induction visible with
  | @last off next fields was held =>
    have linked : blockAt off cacheHeaderSize (img.relink off new).blocks = some (.table new fields) := by
      rw [Image.blocks_relink, blockAt_relink, held]
      simp [Block.relinked]
    rcases blockAt_view_relink img off new alike with same | fresh
    · exact ⟨off, .last (same.trans was) linked⟩
    rw [was] at fresh
    have seen' := blockAt_view_relink_of_ne img new (by omega : new ≠ off) alike
    have found' := blockAt_blocks_relink_of_ne img new (by omega : new ≠ off)
    exact ⟨new, .link fresh linked behind (.last (seen'.trans seen) (found'.trans found))⟩
  | @link off next tail older was held later rest ih =>
    have before := rest.le
    obtain ⟨tail', visible'⟩ := ih behind
    have seen' := blockAt_view_relink_of_ne img new (by omega : off ≠ tail) alike
    have found' := blockAt_blocks_relink_of_ne img new (by omega : off ≠ tail)
    exact ⟨tail', .link (seen'.trans was) (found'.trans held) later visible'⟩

end

end Yarilo.MailIndex
