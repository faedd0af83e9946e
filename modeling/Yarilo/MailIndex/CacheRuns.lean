import Mathlib.Algebra.Order.BigOperators.Group.List
import Yarilo.MailIndex.CacheImage

/-! # Runs on a cache file

Whatever a handle does to the file, opening it again gives the handle's field table, and a record
that was appended reads as its chain, the newest value of every field first. The copy a preload
makes goes stale in the links of tables only: a table linked through a stale link holds every field
the tables it cuts off have.
-/

namespace Yarilo.MailIndex

open Library CacheFile Block List CacheField Image

/-! ## Reading blocks -/

variable {b : Block} {next off n : ℕ} {fields more add : List CacheField} {body : Bytes}
  {offset : UInt32} {values : List CacheFieldValue}

theorem linkTarget_table (table : b = .table next fields) (good : b.Good) {length : ℕ}
    (word : 4 ≤ length) : linkTarget (getLe 4 0 (slice 0 length b.bytes)) = next := by
  subst table
  have first : getLe 4 0 (slice 0 length (table next fields).bytes) =
      getLe 4 0 (putLe 4 (linkWord next) ++ tableRest fields) := by
    simp only [getLe, slice, drop_zero, take_take, Nat.min_eq_left word]
    rfl
  rw [first, getLe_putLe, Nat.mod_eq_of_lt (linkWord_lt next), linkTarget_linkWord good.1 good.2.1]

namespace CacheFile.Shows

variable {c : CacheFile} {file : Bytes} {img : Image} {tail fuel : ℕ} {prev : UInt32}

variable (shown : c.Shows file img)

include shown

theorem view_good (found : blockAt off cacheHeaderSize img.view = some b) : b.Good := by
  have member : b ∈ img.seen ++ img.fresh := (blockAt_bounds found).1
  apply shown.good
  simp only [blocks, mem_append] at member ⊢
  tauto

/-- Every table is found inside the file. -/
theorem blockAt_lt (found : blockAt off cacheHeaderSize img.blocks = some b) :
    off + b.size ≤ file.length := by
  rw [shown.length_file]
  exact (blockAt_bounds found).2.2

/-- A walk that reads a table of the file has a round left for every table behind it. -/
theorem fuel_left (found : blockAt off cacheHeaderSize img.blocks = some b) (enough : file.length ≤ fuel + off) :
    ∃ rest, fuel = rest + 1 ∧ ∀ later > off, file.length ≤ rest + later := by
  have bound := shown.blockAt_lt found
  have size := b.four_le_size
  exact ⟨fuel - 1, by omega, fun later behind => by omega⟩

theorem newestTable (visible : Visible img off tail) (enough : file.length ≤ fuel + off) :
    c.newestTable file fuel off = .ok tail := by
  induction visible generalizing fuel with
  | @last off next fields seen found =>
    obtain ⟨fuel, rfl, -⟩ := shown.fuel_left found enough
    have read : c.readAt file off 4 = _ := shown.readAt_view seen 0 4 (four_le_size _)
    rw [newestTable]
    simp [read, linkTarget_table rfl (shown.view_good seen) le_rfl]
  | @link off next tail older seen found later rest ih =>
    obtain ⟨fuel, rfl, left⟩ := shown.fuel_left found enough
    have read : c.readAt file off 4 = _ := shown.readAt_view seen 0 4 (four_le_size _)
    rw [newestTable]
    simp only [read, linkTarget_table rfl (shown.view_good seen) le_rfl]
    rw [if_neg (by omega), ih (left next later)]

theorem newestTableOffset (visible : Visible img c.hdr.fieldHeaderOffset.toNat tail) :
    c.newestTableOffset file = .ok tail :=
  shown.newestTable visible (Nat.le_add_right _ _)

/-- A table that is seen decodes to its fields. -/
theorem readFieldTable (seen : blockAt off cacheHeaderSize img.view = some (.table next fields)) :
    c.readFieldTable file off = .ok (next, fields) := by
  have good := shown.view_good seen
  obtain ⟨-, -, some, named, small⟩ := good
  have room := tableSpan_ge fields
  have span := size_table small next
  have bytes : (table next fields).bytes = putLe 4 (linkWord next) ++
      (putLe 4 (tableSpan fields) ++ (putLe 4 fields.length ++ tableBody fields)) := by
    rw [bytes, tableRest_eq small]
  have head := shown.readAt_view seen 0 12 (by omega)
  have body := shown.readAt_view seen 12 (tableSpan fields - 12) (by omega)
  have fixed : slice 0 12 (table next fields).bytes = putLe 4 (linkWord next) ++
      (putLe 4 (tableSpan fields) ++ putLe 4 fields.length) := by
    rw [bytes, ← append_assoc, ← append_assoc, slice, drop_zero,
      take_left' (by simp), append_assoc]
  have rest : slice 12 (tableSpan fields - 12) (table next fields).bytes = tableBody fields := by
    rw [bytes, ← append_assoc, ← append_assoc, slice, drop_left' (by simp),
      ← length_tableBody, take_length]
  have size : getLe 4 4 (slice 0 12 (table next fields).bytes) = tableSpan fields := by
    rw [fixed, getLe_skip _ _ _ le_rfl, getLe_putLe]
    exact Nat.mod_eq_of_lt small
  have count : getLe 4 8 (slice 0 12 (table next fields).bytes) = fields.length := by
    rw [fixed, getLe_skip _ _ _ (by decide), getLe_skip _ _ _ (by decide), getLe_putLe_nil]
    exact Nat.mod_eq_of_lt (by omega)
  rw [Nat.add_zero] at head
  unfold CacheFile.readFieldTable
  simp only [head, size, count, linkTarget_table rfl (shown.view_good seen) (by decide : 4 ≤ 12)]
  rw [if_neg (by omega)]
  simp [body, rest, decodeFields_tableBody some named small]

/-- Without stale links the walk over the tables ends with the fields of the chain. -/
theorem loadTables (same : img.view = img.blocks) (chain : Chain img.blocks off fields)
    (enough : file.length ≤ fuel + off) : c.loadTables file fuel off = .ok fields := by
  induction chain generalizing fuel with
  | @last off fields found =>
    obtain ⟨fuel, rfl, -⟩ := shown.fuel_left found enough
    rw [loadTables, shown.readFieldTable (same ▸ found)]
    rfl
  | @link off next older fields found later _ ih =>
    obtain ⟨fuel, rfl, left⟩ := shown.fuel_left found enough
    rw [loadTables, shown.readFieldTable (same ▸ found)]
    simp only
    rw [if_neg (by omega), ih (left next later)]

/-- A record of the file is seen as it is, since only links of tables go stale. -/
theorem record_view (found : blockAt off cacheHeaderSize img.blocks = some (.record prev body)) :
    blockAt off cacheHeaderSize img.view = some (.record prev body) := by
  obtain ⟨b, seen, alike⟩ := shown.blockAt_view found
  cases b with
  | table next fields => cases alike
  | record prev' body' =>
    have same : record prev' body' = record prev body := alike
    rw [seen, same]

/-- One round of the loop over a chain of records. -/
theorem readChain_record (found : blockAt offset.toNat cacheHeaderSize img.blocks = some (.record prev body))
    (encoded : encodeBody c.fields values = .ok body) (links : ℕ) (out : CacheValues) :
    c.readChain file (links + 1) offset out = c.readChain file links prev (out.merge values) := by
  have seen := shown.record_view found
  have size := size_record prev body
  have small : 8 + body.length ≤ 2 ^ 26 := (shown.view_good seen).1
  have first := shown.readAt_view seen 0 8 (by omega)
  have second := shown.readAt_view seen 8 body.length (by omega)
  have front : slice 0 8 (record prev body).bytes = put32 prev ++ putLe 4 (8 + body.length) := by
    rw [bytes, ← append_assoc, slice, drop_zero, take_left' (by simp)]
  have back : slice 8 body.length (record prev body).bytes = body := by
    rw [bytes, ← append_assoc, slice, drop_left' (by simp), take_length]
  have length : getLe 4 4 (put32 prev ++ putLe 4 (8 + body.length)) = 8 + body.length := by
    rw [put32, getLe_skip _ _ _ le_rfl, getLe_putLe_nil]
    exact Nat.mod_eq_of_lt (by omega)
  have nonzero : offset ≠ 0 := by
    intro zero
    have start := (blockAt_bounds found).2.1
    rw [zero] at start
    exact absurd start (by decide)
  rw [Nat.add_zero, front] at first
  rw [back] at second
  rw [readChain, if_neg nonzero]
  simp only [first, length, get32_put32]
  rw [if_neg (by omega), Nat.add_sub_cancel_left]
  simp [second, decodeBody_encodeBody encoded (by omega) le_rfl out]

end CacheFile.Shows

/-! ## Chains of records -/

/-- Every record lies behind the older ones and points at none or at one of them. -/
def Linked : List Appended → Prop
  | [] => True
  | r :: older =>
    (∀ o ∈ older, o.offset ≠ r.offset) ∧
      (r.prevOffset = 0 ∨ ∃ o ∈ older, o.offset = r.prevOffset) ∧ Linked older

/-- The record is in the file, written with the fields the handle has. -/
def CacheFile.Stores (c : CacheFile) (blocks : List Block) (r : Appended) : Prop :=
  ∃ body, blockAt r.offset.toNat cacheHeaderSize blocks = some (.record r.prevOffset body) ∧
    encodeBody c.fields r.values = .ok body

theorem CacheFile.Shows.readChain {c : CacheFile} {file : Bytes} {img : Image}
    (shown : c.Shows file img) {records : List Appended} (stored : ∀ r ∈ records, c.Stores img.blocks r)
    (linked : Linked records) (held : offset = 0 ∨ ∃ r ∈ records, r.offset = offset) {links : ℕ}
    (short : (prevChain records offset).length ≤ links) (out : CacheValues) :
    c.readChain file links offset out =
      .ok (out.merge ((prevChain records offset).flatMap Appended.values)) := by
  induction records generalizing offset links out with
  | nil =>
    obtain rfl : offset = 0 := held.resolve_right (by simp)
    cases links with
    | zero => exact congrArg Except.ok out.merge_nil.symm
    | succ links => exact congrArg Except.ok out.merge_nil.symm
  | cons r older ih =>
    have older_stored : ∀ o ∈ older, c.Stores img.blocks o := fun o member => stored o (by simp [member])
    rw [prevChain] at short ⊢
    by_cases here : r.offset = offset
    · rw [if_pos here] at short ⊢
      obtain ⟨body, found, encoded⟩ := stored r (by simp)
      rw [here] at found
      cases links with
      | zero => simp at short
      | succ links =>
        rw [shown.readChain_record found encoded, ih older_stored linked.2.2 linked.2.1
          (Nat.le_of_succ_le_succ short), flatMap_cons, CacheValues.merge_append]
    · rw [if_neg here] at short ⊢
      refine ih older_stored linked.2.2 ?_ short out
      rcases held with zero | ⟨o, member, same⟩
      · exact .inl zero
      rcases mem_cons.mp member with rfl | member
      · exact absurd same here
      · exact .inr ⟨o, member, same⟩

/-! ## Fields that are added -/

/-- The new fields among those an operation adds. -/
def CacheFile.unknown (c : CacheFile) (add : List CacheField) : List CacheField :=
  add.filter fun fl => (c.byName fl.name).isNone

theorem widen_name (fl : CacheField) : (widen fl).name = fl.name := by
  unfold widen
  split
  · rfl
  · rfl

theorem mergeField_fold (add held : List CacheField) (ids : Bytes → Option UInt32) :
    ∃ more, (add.foldl mergeField (held, ids)).1 = held ++ more ∧
      List.Sublist (more.map name)
        ((add.filter fun fl => (ids fl.name).isNone).map name) := by
  induction add generalizing held ids with
  | nil => exact ⟨[], by simp, by simp⟩
  | cons fl rest ih =>
    rw [foldl_cons]
    cases known : ids fl.name with
    | some id =>
      rw [mergeField, if_pos (by simp [known]), filter_cons_of_neg (by simp [known])]
      exact ih held ids
    | none =>
      rw [mergeField, if_neg (by simp [known]), filter_cons_of_pos (by simp [known])]
      obtain ⟨more, result, sub⟩ := ih (held ++ [widen fl])
        (Function.update ids fl.name (some (UInt32.ofNat held.length)))
      refine ⟨widen fl :: more, by rw [result, append_assoc]; rfl, ?_⟩
      rw [map_cons, map_cons, widen_name]
      refine (sub.trans ((monotone_filter_right rest ?_).map _)).cons_cons _
      -- a name that is still unknown was unknown before
      intro other unknown
      by_cases same : other.name = fl.name
      · simp [same] at unknown
      · rwa [Function.update_of_ne same] at unknown

theorem length_nameBytes (fields : List CacheField) : (nameBytes fields).length =
    ((fields.map name).map fun name => name.length + 1).sum := by
  rw [nameBytes, length_flatMap, map_map]
  simp [Function.comp_def]

/-- What a table takes grows with the names in it. -/
theorem tableSpan_mono (sub : List.Sublist (fields.map name) (more.map name)) :
    tableSpan fields ≤ tableSpan more := by
  have count := sub.length_le
  have names := (sub.map fun name : Bytes => name.length + 1).sum_le_sum (by simp)
  rw [length_map, length_map] at count
  rw [← length_nameBytes, ← length_nameBytes] at names
  unfold tableSpan pad4
  simp only
  omega

theorem CacheFile.mergeFields_spec (c : CacheFile) (add : List CacheField) :
    ∃ more, (c.mergeFields add).1 = c.fields ++ more ∧
      List.Sublist (more.map name) ((c.unknown add).map name) :=
  mergeField_fold add c.fields c.byName

/-- The table with the new fields is no longer than the fields held and the unknown ones take. -/
theorem CacheFile.tableSpan_mergeFields (c : CacheFile) (add : List CacheField) :
    tableSpan (c.mergeFields add).1 ≤ tableSpan (c.fields ++ c.unknown add) := by
  obtain ⟨more, merged, sub⟩ := c.mergeFields_spec add
  apply tableSpan_mono
  rw [merged, map_append, map_append]
  exact (List.Sublist.refl _).append sub

theorem CacheFile.mergeFields_named {c : CacheFile} (held : ∀ fl ∈ c.fields, fl.Named)
    (named : ∀ fl ∈ add, fl.Named) : ∀ fl ∈ (c.mergeFields add).1, fl.Named := by
  obtain ⟨more, merged, sub⟩ := c.mergeFields_spec add
  intro fl member
  rw [merged] at member
  rcases mem_append.mp member with old | new
  · exact held fl old
  obtain ⟨other, unknown, same⟩ := mem_map.mp (sub.subset (mem_map_of_mem new))
  have source := named other (mem_of_mem_filter unknown)
  unfold CacheField.Named at source ⊢
  rwa [← same]

/-- Appending to a file whose length is a multiple of four. -/
theorem appendAligned_eq {file : Bytes} (aligned : file.length % 4 = 0) (buf : Bytes) :
    appendAligned file buf =
      if 0x3fffffff < file.length then (.error .full, file) else (.ok file.length, file ++ buf) := by
  have none : pad4 file.length = 0 := by unfold pad4; omega
  unfold appendAligned
  simp [none, zeros]

/-! ## The invariant of a run -/

/-- The header names this index, this generation of the file and this code. -/
def CacheHeader.Identifies (h : CacheHeader) (indexID fileSeq : UInt32) : Prop :=
  h.majorVersion = cacheMajorVersion ∧ h.compatSizeofUoffT = cacheCompatSizeofUoffT ∧
    h.indexID = indexID ∧ h.fileSeq = fileSeq ∧ h.producerGen = cacheProducerGen

/-- The header and the tables lead to the fields the handle holds, and the handle sees a way to a
table it can link the next one from. -/
def CacheFile.Tabled (c : CacheFile) (img : Image) : Prop := c.hdr.fieldHeaderOffset = 0 ∧ c.fields = [] ∨
    c.hdr.fieldHeaderOffset ≠ 0 ∧ Chain img.blocks c.hdr.fieldHeaderOffset.toNat c.fields ∧
      ∃ tail, Visible img c.hdr.fieldHeaderOffset.toNat tail

structure CacheRun.Sound (indexID fileSeq : UInt32) (s : CacheRun) (img : Image) : Prop where
  shown : s.handle.Shows s.file img
  identifies : s.handle.hdr.Identifies indexID fileSeq
  tabled : s.handle.Tabled img
  stored : ∀ r ∈ s.records, s.handle.Stores img.blocks r
  linked : Linked s.records
  short : ∀ r ∈ s.records, (prevChain s.records r.offset).length ≤ 1024

theorem Chain.fields_good {blocks : List Block} (good : ∀ b ∈ blocks, b.Good)
    (chain : Chain blocks off fields) : (Block.table 0 fields).Good := by
  induction chain with
  | last found => exact good _ (blockAt_bounds found).1
  | link _ _ _ ih => exact ih

/-- A handle that holds nothing but the header finds the fields. -/
theorem CacheFile.loadFields_eq {c : CacheFile} {file : Bytes} {img : Image}
    (shown : c.Shows file img) (tabled : c.Tabled img) :
    ∃ byName, loadFields { hdr := c.hdr, fields := [], byName := fun _ => none, snap := none } file =
      .ok { hdr := c.hdr, fields := c.fields, byName := byName, snap := none } := by
  unfold loadFields
  rcases tabled with ⟨zero, held⟩ | ⟨nonzero, chain, -⟩
  · refine ⟨fun _ => none, ?_⟩
    rw [if_pos zero, held]
  have bare : CacheFile.Shows { hdr := c.hdr, fields := [], byName := fun _ => none, snap := none }
      file { seen := [], under := [], fresh := img.blocks } := shown.uncopied rfl rfl
  have tables := bare.loadTables rfl chain (Nat.le_add_right file.length _)
  refine ⟨nameIDs c.fields, ?_⟩
  rw [if_neg nonzero, tables]

/-- A block behind all others is found where they end. -/
theorem blockAt_end (pos : ℕ) (blocks : List Block) (b : Block) :
    blockAt (pos + (blockBytes blocks).length) pos (blocks ++ [b]) = some b := by
  have absent : blockAt (pos + (blockBytes blocks).length) pos blocks = none := by
    cases found : blockAt (pos + (blockBytes blocks).length) pos blocks with
    | none => rfl
    | some b' =>
      have bound := (blockAt_bounds found).2.2
      have positive := b'.four_le_size
      omega
  rw [blockAt_append, absent, Option.none_or, blockAt, if_pos rfl]

namespace CacheRun.Sound

variable {indexID fileSeq : UInt32} {s : CacheRun} {img img' : Image}

variable (sound : s.Sound indexID fileSeq img)

include sound

/-- Opening the file gives a handle with the same header and the same fields. -/
theorem openCache : ∃ c, CacheFile.openCache s.file indexID fileSeq = .ok c ∧ c.hdr = s.handle.hdr ∧
      c.snap = none ∧ c.fields = s.handle.fields := by
  obtain ⟨major, uoff, index, seq, gen⟩ := sound.identifies
  obtain ⟨byName, loaded⟩ := CacheFile.loadFields_eq sound.shown sound.tabled
  have head : s.file.take cacheHeaderSize = s.handle.hdr.encode := by
    rw [sound.shown.content, ← s.handle.hdr.length_encode, take_left' rfl]
  have opened : CacheFile.openCache s.file indexID fileSeq =
      .ok { hdr := s.handle.hdr, fields := s.handle.fields, byName := byName, snap := none } := by
    unfold CacheFile.openCache
    rw [if_neg (by rw [sound.shown.length_file]; omega), head, decodeCacheHeader_encode]
    simp [major, uoff, index, seq, gen, loaded]
  exact ⟨_, opened, rfl, rfl, rfl⟩

/-- The fields of a new table, once the header or a table leads to it. -/
theorem retabled {c : CacheFile} {file : Bytes} (shown : c.Shows file img')
    (identifies : c.hdr.Identifies indexID fileSeq) (tabled : c.Tabled img')
    (grown : c.fields = s.handle.fields ++ more)
    (kept : ∀ off prev body, blockAt off cacheHeaderSize img.blocks = some (.record prev body) →
      blockAt off cacheHeaderSize img'.blocks = some (.record prev body)) :
    Sound indexID fileSeq { s with handle := c, file := file } img' := by
  refine { sound with shown, identifies, tabled, stored := fun r member => ?_ }
  obtain ⟨body, found, encoded⟩ := sound.stored r member
  refine ⟨body, kept _ _ _ found, ?_⟩
  simp only [grown]
  exact encodeBody_grown encoded more

/-- A handle with the same header and fields, with no copy or a new one. -/
theorem rehandled {c : CacheFile} (shown : c.Shows s.file img') (whole : img'.view = img'.blocks)
    (blocks : img'.blocks = img.blocks) (hdr : c.hdr = s.handle.hdr)
    (fields : c.fields = s.handle.fields) : Sound indexID fileSeq { s with handle := c } img' := by
  refine sound.retabled shown (hdr ▸ sound.identifies) ?_ (fields.trans (append_nil _).symm)
    fun _ _ _ found => blocks ▸ found
  unfold CacheFile.Tabled
  simp only [hdr, fields]
  rcases sound.tabled with none | ⟨nonzero, chain, -⟩
  · exact .inl none
  · rw [← blocks] at chain
    exact .inr ⟨nonzero, chain, chain.visible whole⟩

theorem reopen : ∃ img', (s.step indexID fileSeq .reopen).Sound indexID fileSeq img' := by
  obtain ⟨c, opened, hdr, none, fields⟩ := sound.openCache
  refine ⟨{ seen := [], under := [], fresh := img.blocks }, ?_⟩
  simp only [step, opened]
  exact sound.rehandled (sound.shown.uncopied hdr none) rfl rfl hdr fields

theorem preload : ∃ img', (s.step indexID fileSeq .preload).Sound indexID fileSeq img' := by
  simp only [step, CacheFile.preload]
  split
  · exact ⟨img, sound⟩
  split
  · exact ⟨img, sound⟩
  · refine ⟨{ seen := img.blocks, under := img.blocks, fresh := [] }, ?_⟩
    exact sound.rehandled (sound.shown.copied rfl rfl) rfl (append_nil _) rfl rfl

/-- Another header that leads to the same tables. -/
theorem setHeader {hdr : CacheHeader} (identifies : hdr.Identifies indexID fileSeq)
    (tables : hdr.fieldHeaderOffset = s.handle.hdr.fieldHeaderOffset) :
    Sound indexID fileSeq
      { s with handle := { s.handle with hdr := hdr }, file := blit 0 hdr.encode s.file } img := by
  refine { sound with shown := sound.shown.writeHeader hdr, identifies, tabled := ?_ }
  unfold CacheFile.Tabled
  simp only [tables]
  exact sound.tabled

theorem markDeleted : (s.step indexID fileSeq .markDeleted).Sound indexID fileSeq img :=
  sound.setHeader sound.identifies rfl

/-- A block behind the others changes nothing the header leads to. -/
theorem push (good : b.Good) : Sound indexID fileSeq { s with file := s.file ++ b.bytes } (img.push b) := by
  refine sound.retabled (sound.shown.push good) sound.identifies ?_ (append_nil _).symm
    fun _ _ _ found => blocks_push img b ▸ blockAt_push b found
  rcases sound.tabled with none | ⟨nonzero, chain, tail, visible⟩
  · exact .inl none
  refine .inr ⟨nonzero, ?_, tail, visible.push b⟩
  rw [blocks_push]
  exact chain.push b

theorem blockAt_new (b : Block) : blockAt s.file.length cacheHeaderSize (img.push b).blocks = some b := by
  rw [blocks_push, sound.shown.length_file]
  exact blockAt_end _ _ b

theorem view_new (b : Block) : blockAt s.file.length cacheHeaderSize (img.push b).view = some b := by
  have length : (blockBytes img.blocks).length = (blockBytes img.view).length := by
    rw [blocks, view, blockBytes_append, blockBytes_append, length_append,
      length_append, length_alike sound.shown.alike]
  rw [view_push, sound.shown.length_file, length]
  exact blockAt_end _ _ b

/-- A record that was written to the end of the file and is reported. -/
theorem report {r : Appended} (stored : s.handle.Stores img.blocks r)
    (behind : ∀ o ∈ s.records, o.offset ≠ r.offset)
    (older : r.prevOffset = 0 ∨ ∃ o ∈ s.records, o.offset = r.prevOffset)
    (short : (prevChain s.records r.prevOffset).length < 1024) :
    Sound indexID fileSeq { s with records := r :: s.records } img := by
  refine { sound with
    stored := forall_mem_cons.mpr ⟨stored, sound.stored⟩
    linked := ⟨behind, older, sound.linked⟩
    short := forall_mem_cons.mpr ⟨?_, fun o member => ?_⟩ }
  · simp only [prevChain]
    exact short
  · simp only [prevChain, if_neg (Ne.symm (behind o member))]
    exact sound.short o member

theorem appendRecord {prevOffset : UInt32}
    (bounded : ∀ body, encodeBody s.handle.fields values = .ok body → 8 + body.length ≤ 2 ^ 26)
    (older : prevOffset = 0 ∨ ∃ o ∈ s.records, o.offset = prevOffset)
    (short : (prevChain s.records prevOffset).length < 1024) :
    ∃ img', (s.step indexID fileSeq (.appendRecord prevOffset values)).Sound indexID fileSeq img' := by
  simp only [step, CacheFile.appendRecord]
  cases encoded : encodeBody s.handle.fields values with
  | error err => exact ⟨img, sound⟩
  | ok body =>
    simp only [appendAligned_eq sound.shown.length_mod]
    by_cases full : 0x3fffffff < s.file.length
    · simp only [if_pos full]
      exact ⟨img, sound⟩
    simp only [if_neg full]
    have good : (record prevOffset body).Good := ⟨bounded body encoded, encodeBody_length_mod encoded⟩
    have word : (UInt32.ofNat s.file.length).toNat = s.file.length := by
      rw [UInt32.toNat_ofNat']
      exact Nat.mod_eq_of_lt (by omega)
    have pushed := sound.push good
    have found := sound.blockAt_new (.record prevOffset body)
    refine ⟨img.push (.record prevOffset body), ?_⟩
    refine ((pushed.report (r := { offset := .ofNat s.file.length, prevOffset, values })
      ⟨body, by rw [word]; exact found, encoded⟩ ?_ older short).setHeader ?_ ?_)
    · -- a record is found inside the file, the new one at its end
      intro o member same
      obtain ⟨body', held, -⟩ := sound.stored o member
      have bound := sound.shown.blockAt_lt held
      have positive := (record o.prevOffset body').four_le_size
      rw [same, word] at bound
      omega
    · split
      · exact sound.identifies
      · exact sound.identifies
    · split
      · rfl
      · rfl

/-- Names learned without a table, as after an append to a full file. -/
theorem setNames (byName : Bytes → Option UInt32) :
    Sound indexID fileSeq { s with handle := { s.handle with byName := byName } } img :=
  { sound with shown := sound.shown.setFields _ byName }

theorem fields_named : ∀ fl ∈ s.handle.fields, fl.Named := by
  rcases sound.tabled with ⟨-, empty⟩ | ⟨-, chain, -⟩
  · rw [empty]
    simp
  · have good := chain.fields_good fun b member => sound.shown.good b (by simp [member])
    exact good.2.2.2.1

/-- The table of all fields, linked behind the one the handle takes for the last. -/
theorem linkTable {merged : List CacheField} (grown : merged = s.handle.fields ++ more)
    (good : (Block.table 0 merged).Good) (room : s.file.length ≤ 0x3fffffff) :
    ∃ c file img', s.handle.linkTable (s.file ++ (Block.table 0 merged).bytes) s.file.length =
        .ok (c, file) ∧
      Sound indexID fileSeq { s with handle := { c with fields := merged }, file := file } img' := by
  have word : (UInt32.ofNat s.file.length).toNat = s.file.length := by
    rw [UInt32.toNat_ofNat']
    exact Nat.mod_eq_of_lt (by omega)
  have start : cacheHeaderSize ≤ s.file.length := by
    rw [sound.shown.length_file]
    exact Nat.le_add_right _ _
  have behind : 0 < cacheHeaderSize := by decide
  have pushed := sound.push good
  have found := sound.blockAt_new (.table 0 merged)
  have seen := sound.view_new (.table 0 merged)
  unfold CacheFile.linkTable
  rcases sound.tabled with ⟨zero, -⟩ | ⟨nonzero, -, tail, visible⟩
  · rw [if_pos zero]
    refine ⟨_, _, img.push (.table 0 merged), rfl, ?_⟩
    refine sound.retabled ((pushed.shown.writeHeader _).setFields merged _) sound.identifies ?_
      grown fun off prev body held => ?_
    · refine .inr ⟨?_, ?_⟩
      · intro none
        have none' := congrArg UInt32.toNat none
        rw [word] at none'
        have zero' : (0 : UInt32).toNat = 0 := rfl
        omega
      · simp only [word]
        exact ⟨.last found, s.file.length, .last seen found⟩
    · rw [blocks_push]
      exact blockAt_push _ held
  · have visible' := visible.push (.table 0 merged)
    have newest := pushed.shown.newestTableOffset visible'
    obtain ⟨next, fields, tailFound⟩ : ∃ next fields,
        blockAt tail cacheHeaderSize img.blocks = some (.table next fields) := visible.table
    have bound := sound.shown.blockAt_lt tailFound
    have positive := (table next fields).four_le_size
    have before : tail < s.file.length := by omega
    have packed : (packCacheOffset (.ofNat 32 s.file.length)).toNat = linkWord s.file.length := by
      rw [linkWord, if_neg (by omega)]
    have tailPushed : blockAt tail cacheHeaderSize (img.push (.table 0 merged)).blocks =
        some (.table next fields) := by
      rw [blocks_push]
      exact blockAt_push _ tailFound
    rw [if_neg nonzero, newest]
    refine ⟨_, _, (img.push (.table 0 merged)).relink tail s.file.length, rfl, ?_⟩
    rw [packed]
    refine sound.retabled ((pushed.shown.relink tailPushed (by omega)
      sound.shown.length_mod).setFields merged _) sound.identifies ?_ grown
      fun off prev body held => ?_
    · exact .inr ⟨nonzero, visible'.chain_relink before found,
        visible'.relink before found pushed.shown.alike seen⟩
    · -- a record is not the table that is relinked
      have heldPushed := blockAt_push (.table 0 merged) held
      rw [← blocks_push] at heldPushed
      rw [blocks_relink, blockAt_relink, heldPushed]
      simp [relinked]

theorem addFields (named : ∀ fl ∈ add, fl.Named)
    (fits : tableSpan (s.handle.fields ++ s.handle.unknown add) < 2 ^ 32) :
    ∃ img', (s.step indexID fileSeq (.addFields add)).Sound indexID fileSeq img' := by
  have small := (s.handle.tableSpan_mergeFields add).trans_lt fits
  have allNamed := mergeFields_named sound.fields_named named
  obtain ⟨more, grown, -⟩ := s.handle.mergeFields_spec add
  simp only [step, CacheFile.addFields]
  generalize (s.handle.mergeFields add).1 = merged at small allNamed grown
  generalize (s.handle.mergeFields add).2 = byName
  have renamed := sound.setNames byName
  by_cases same : u32 merged.length = u32 s.handle.fields.length
  · rw [if_pos same]
    exact ⟨img, renamed⟩
  rw [if_neg same]
  have some : merged ≠ [] := by
    intro none
    have both := grown
    rw [none] at both
    rw [none, (append_eq_nil_iff.mp both.symm).1] at same
    exact same rfl
  have room := tableSpan_ge merged
  have table : encodeTable merged = .ok (table 0 merged).bytes := by
    rw [encodeTable, tableSize_eq small, if_neg (by omega)]
    rfl
  simp only [table, appendAligned_eq sound.shown.length_mod]
  by_cases full : 0x3fffffff < s.file.length
  · simp only [if_pos full]
    exact ⟨img, renamed⟩
  simp only [if_neg full]
  obtain ⟨c, file, img', linked, result⟩ := renamed.linkTable grown
    ⟨by decide, by decide, some, allNamed, small⟩ (by exact not_lt.mp full)
  simp only [linked]
  exact ⟨img', result⟩

end CacheRun.Sound

/-! ## What a run keeps -/

/-- The record the values make has at most 64 MiB. -/
def CacheFile.recordBounded (c : CacheFile) (values : List CacheFieldValue) : Bool :=
  match encodeBody c.fields values with
  | .ok body => 8 + body.length ≤ 2 ^ 26
  | .error _ => true

theorem CacheFile.recordBounded_ok {c : CacheFile} (bounded : c.recordBounded values = true)
    (encoded : encodeBody c.fields values = .ok body) : 8 + body.length ≤ 2 ^ 26 := by
  rw [recordBounded, encoded] at bounded
  exact of_decide_eq_true bounded

/-- The use of the cache the file format is made for: names that a NUL ends, records of at most
64 MiB, links to records that were appended, and chains of at most 1024 records. -/
def CacheOp.Allowed (s : CacheRun) : CacheOp → Prop
  | .addFields add => ∀ fl ∈ add, fl.Named
  | .appendRecord prevOffset values =>
    s.handle.recordBounded values = true ∧ (prevOffset = 0 ∨ ∃ o ∈ s.records, o.offset = prevOffset) ∧
      (prevChain s.records prevOffset).length < 1024
  | .preload | .markDeleted | .reopen => True

/-- The fields the handle holds and the new ones make a table of less than 4 GiB. -/
def CacheOp.TableFits (s : CacheRun) : CacheOp → Prop
  | .addFields add => tableSpan (s.handle.fields ++ s.handle.unknown add) < 2 ^ 32
  | .appendRecord .. | .preload | .markDeleted | .reopen => True

instance (s : CacheRun) : DecidablePred (CacheOp.Allowed s)
  | .addFields _ => inferInstanceAs (Decidable (∀ _ ∈ _, _))
  | .appendRecord .. => inferInstanceAs (Decidable (_ ∧ _))
  | .preload | .markDeleted | .reopen => inferInstanceAs (Decidable True)

instance (s : CacheRun) : DecidablePred (CacheOp.TableFits s)
  | .addFields _ => inferInstanceAs (Decidable (_ < _))
  | .appendRecord .. | .preload | .markDeleted | .reopen => inferInstanceAs (Decidable True)

namespace CacheRun

/-- Every operation of the run is as the condition asks of the state it starts from. -/
def Obeys (indexID fileSeq : UInt32) (condition : CacheRun → CacheOp → Prop) :
    CacheRun → List CacheOp → Prop
  | _, [] => True
  | s, op :: rest =>
    condition s op ∧ Obeys indexID fileSeq condition (s.step indexID fileSeq op) rest

instance decidableObeys (indexID fileSeq : UInt32) (condition : CacheRun → CacheOp → Prop)
    [∀ s op, Decidable (condition s op)] :
    (s : CacheRun) → (ops : List CacheOp) → Decidable (Obeys indexID fileSeq condition s ops)
  | _, [] => .isTrue trivial
  | s, op :: rest =>
    @instDecidableAnd _ _ _ (decidableObeys indexID fileSeq condition (s.step indexID fileSeq op) rest)

/-- Opening the file gives the fields of the handle, and the handle reads every record that was
appended as the values along its chain, the newest of every field. -/
def Retains (indexID fileSeq : UInt32) (s : CacheRun) : Prop :=
  (∃ c, openCache s.file indexID fileSeq = .ok c ∧ c.fields = s.handle.fields) ∧
    ∀ r ∈ s.records, s.handle.readRecord s.file r.offset =
      .ok (firstValue ((prevChain s.records r.offset).flatMap Appended.values))

variable {indexID fileSeq : UInt32} {s : CacheRun} {img : Image}

section

variable (sound : s.Sound indexID fileSeq img)

include sound

theorem Sound.step {op : CacheOp} (allowed : op.Allowed s) (fits : op.TableFits s) :
    ∃ img', (s.step indexID fileSeq op).Sound indexID fileSeq img' := by
  cases op with
  | addFields add => exact sound.addFields allowed fits
  | appendRecord prevOffset values =>
    obtain ⟨bounded, older, short⟩ := allowed
    exact sound.appendRecord (fun _ => recordBounded_ok bounded) older short
  | preload => exact sound.preload
  | markDeleted => exact ⟨img, sound.markDeleted⟩
  | reopen => exact sound.reopen

theorem Sound.run {ops : List CacheOp}
    (obeys : Obeys indexID fileSeq (fun s op => op.Allowed s ∧ op.TableFits s) s ops) :
    ∃ img', (s.run indexID fileSeq ops).Sound indexID fileSeq img' := by
  induction ops generalizing s img with
  | nil => exact ⟨img, sound⟩
  | cons op rest ih =>
    obtain ⟨⟨allowed, fits⟩, later⟩ := obeys
    obtain ⟨img', next⟩ := sound.step allowed fits
    exact ih next later

theorem Sound.retains : s.Retains indexID fileSeq := by
  constructor
  · obtain ⟨c, opened, -, -, fields⟩ := sound.openCache
    exact ⟨c, opened, fields⟩
  · intro r member
    exact sound.shown.readChain sound.stored sound.linked (.inr ⟨r, member, rfl⟩)
      (sound.short r member) _

end

theorem sound_create (indexID fileSeq : UInt32) :
    (create indexID fileSeq).Sound indexID fileSeq { seen := [], under := [], fresh := [] } where
  shown := ⟨(List.append_nil _).symm, rfl, .nil, fun _ member => absurd member List.not_mem_nil⟩
  identifies := ⟨rfl, rfl, rfl, rfl, rfl⟩
  tabled := .inl ⟨rfl, rfl⟩
  stored := fun _ member => absurd member List.not_mem_nil
  linked := trivial
  short := fun _ member => absurd member List.not_mem_nil

/-- A cache file loses nothing it accepted, as long as its field tables stay below 4 GiB. -/
theorem run_retains (indexID fileSeq : UInt32) (ops : List CacheOp)
    (obeys : Obeys indexID fileSeq (fun s op => op.Allowed s ∧ op.TableFits s)
      (create indexID fileSeq) ops) :
    ((create indexID fileSeq).run indexID fileSeq ops).Retains indexID fileSeq := by
  obtain ⟨img, sound⟩ := (sound_create indexID fileSeq).run obeys
  exact sound.retains

/-- Two fields around a preload, and a record behind another one. -/
def sampleOps : List CacheOp :=
  [.addFields [{ name := [115], type := 0, decision := 2, size := 4, lastUsed := 0 }], .preload,
    .addFields [{ name := [104], type := 2, decision := 2, size := 0, lastUsed := 0 }],
    .appendRecord 0 [{ fieldID := 0, data := [1, 2, 3, 4] }],
    .appendRecord 92 [{ fieldID := 1, data := [9] }], .reopen]

theorem run_retains_sample : Obeys 7 1 (fun s op => op.Allowed s ∧ op.TableFits s) (create 7 1) sampleOps ∧
      ((create 7 1).run 7 1 sampleOps).Retains 7 1 := by
  have obeys : Obeys 7 1 (fun s op => op.Allowed s ∧ op.TableFits s) (create 7 1) sampleOps := by
    decide +kernel
  exact ⟨obeys, run_retains 7 1 sampleOps obeys⟩

end CacheRun

/-! ## A table beyond 4 GiB -/

/-- A field with a name of `n` bytes. -/
def wideField (n : ℕ) : CacheField :=
  { name := List.replicate n 1, type := 0, decision := 0, size := 4, lastUsed := 0 }

/-- The table of that field when the length of its name is a multiple of 4 GiB. -/
def cutTable : Bytes := putLe 4 0 ++ (putLe 4 24 ++ putLe 4 1 ++ put32 0 ++ put32 4 ++ [0] ++ [0] ++ [1, 1])

/-- Four gigabytes of names leave no room for any. -/
theorem encodeTable_wide (wraps : n % 2 ^ 32 = 0) (long : 2 ≤ n) :
    encodeTable [wideField n] = .ok cutTable := by
  have names : nameBytes [wideField n] = replicate n 1 ++ [0] := by simp [nameBytes, wideField]
  have length : (nameBytes [wideField n]).length = n + 1 := by simp [names]
  have first : (nameBytes [wideField n]).take 2 = [1, 1] := by
    rw [names, take_append_of_le_length (by simpa using long), take_replicate,
      Nat.min_eq_left long]
    rfl
  have size : tableSize [wideField n] = 24 := by
    have inner : u32 (12 + 10 * 1 + (n + 1)) = 23 := by unfold u32; omega
    unfold tableSize
    rw [length]
    simp only [length_singleton, inner]
    decide
  rw [encodeTable, size, if_neg (by simp), tableRest, size, length]
  have room : 2 - (n + 1) = 0 := by omega
  simp only [length_singleton, Nat.reduceMul, Nat.reduceAdd, Nat.reduceSub, first, room]
  rfl


/-- The file with that table. -/
def cutFile : Bytes :=
  { (createCache 7 1).1.hdr with fieldHeaderOffset := 32 }.encode ++ cutTable

theorem addFields_wide (wraps : n % 2 ^ 32 = 0) (long : 2 ≤ n) :
    ∃ c : CacheFile, (createCache 7 1).1.addFields (createCache 7 1).2
        [wideField n] = (.ok 0, c, cutFile) ∧ c.fields = [wideField n] := by
  have merged : (createCache 7 1).1.mergeFields [wideField n] =
      ([wideField n], Function.update (fun _ => none) (wideField n).name (some 0)) := rfl
  unfold addFields
  simp only [merged, encodeTable_wide wraps long]
  exact ⟨_, rfl, rfl⟩

/-- The table is written and reported as added, with the first two bytes of the name. -/
theorem addFields_cut_off : (wideField (2 ^ 32)).Named ∧
      ∃ c file, (createCache 7 1).1.addFields (createCache 7 1).2
          [wideField (2 ^ 32)] = (.ok 0, c, file) ∧ c.fields = [wideField (2 ^ 32)] ∧
        ∃ reopened, openCache file 7 1 = .ok reopened ∧
          reopened.fields = [wideField 2] ∧ reopened.fields ≠ c.fields := by
  obtain ⟨c, added, fields⟩ := addFields_wide (n := 2 ^ 32) (by decide) (by decide)
  have named : (wideField (2 ^ 32)).Named := by
    constructor
    · intro none
      have length := congrArg length none
      rw [wideField, length_replicate] at length
      exact absurd length (by decide)
    · intro member
      have one := (mem_replicate.mp member).2
      exact absurd one (by decide)
  have differ : [wideField 2] ≠ [wideField (2 ^ 32)] := by
    intro same
    have length := congrArg (fun fl => fl.name.length) (singleton_inj.mp same)
    simp only [wideField, length_replicate] at length
    exact absurd length (by decide)
  have reopens : ∃ reopened, openCache cutFile 7 1 = .ok reopened ∧
      reopened.fields = [wideField 2] := ⟨_, rfl, rfl⟩
  obtain ⟨reopened, opened, held⟩ := reopens
  exact ⟨named, c, cutFile, added, fields, reopened, opened, held, by rw [held, fields]; exact differ⟩
end Yarilo.MailIndex
