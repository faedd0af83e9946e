import Yarilo.FolderLayout.Folder

/-! # Extension lists the package can have written

The first version's extensions are in every index, each of the later ones may be missing. Which
record extensions are there settles the record's size and the place of every value in it.
-/

namespace Yarilo.FolderLayout

open Library MailIndex Extension List

/-- The header data an extension may bring. Only the keyword names are of any length. -/
def Ext.dataLimit : Ext → ℕ
  | .keywords => 2 ^ 31
  | _ => 2 ^ 16

/-- The entry of an extension list is this extension. -/
structure IsExt (e : Extension) (x : Ext) : Prop where
  name : e.name = x.name
  recordSize : e.recordSize = x.recordSize
  recordAlign : e.recordAlign = x.recordAlign
  hdrSize : e.hdrSize = UInt32.ofNat e.hdrData.length
  bounded : e.hdrData.length < x.dataLimit

def declares (exts : List Extension) (x : Ext) : Prop := x.name ∈ exts.map name

instance (exts : List Extension) (x : Ext) : Decidable (declares exts x) :=
  inferInstanceAs (Decidable (_ ∈ _))

structure Declared (exts : List Extension) : Prop where
  known : ∀ e ∈ exts, ∃ x, IsExt e x
  distinct : (exts.map name).Nodup
  core : ∀ x ∈ Ext.core, declares exts x

theorem Ext.mem_all (x : Ext) : x ∈ Ext.all := by
  cases x <;> decide

variable {x y : Ext} {e : Extension} {exts exts' : List Extension} {data : Bytes}

theorem Ext.name_injective (same : x.name = y.name) : x = y := by
  have apart : ∀ x ∈ Ext.all, ∀ y ∈ Ext.all, x.name = y.name → x = y := by decide
  exact apart x x.mem_all y y.mem_all same

theorem IsExt.check (is : IsExt e x) : e.check = none := by
  have names : ∀ x ∈ Ext.all, x.name ≠ [] ∧ x.name.length ≤ extNameMaxLength ∧
      ¬ (x.recordAlign = 0 ∧ x.recordSize ≠ 0) ∧
      ¬ (8 < x.recordAlign ∨ x.recordAlign ≠ 0 ∧ x.recordAlign &&& (x.recordAlign - 1) ≠ 0) := by
    decide
  obtain ⟨named, short, placed, align⟩ := names x x.mem_all
  unfold Extension.check
  rw [is.name, is.recordAlign, is.recordSize, is.hdrSize, if_neg named, if_neg (by omega),
    if_neg placed, if_neg align, if_neg (by simp)]

theorem Declared.check (declared : Declared exts) : ∀ e ∈ exts, e.check = none := by
  intro e member
  obtain ⟨x, is⟩ := declared.known e member
  exact is.check

theorem dataLimit_le (x : Ext) : x.dataLimit ≤ 2 ^ 31 := by
  cases x <;> decide

/-! ## The layout of a declared list -/

/-- The record extensions an index may lack. -/
def Ext.later : List Ext := [cache, mdbox, guid]

/-- The record extensions, with those of the later ones that are chosen. -/
def recordExtsWith (cache mdbox guid : Bool) : List Ext :=
  [.modSeq, .keywords, .internalDate, .vsize] ++ (if cache then [.cache] else []) ++
    (if mdbox then [.mdbox] else []) ++ if guid then [.guid] else []

theorem mem_recordExtsWith {cache mdbox guid : Bool} :
    x ∈ recordExtsWith cache mdbox guid ↔ x.recordSize ≠ 0 ∧ (x = .cache → cache = true) ∧
      (x = .mdbox → mdbox = true) ∧ (x = .guid → guid = true) := by
  cases cache <;> cases mdbox <;> cases guid <;> cases x <;> decide

/-- The size of a record with the chosen ones of the later extensions. -/
def widthWith (cache mdbox guid : Bool) : ℕ :=
  28 + (if cache then 4 else 0) + (if mdbox then 8 else 0) + if guid then 16 else 0

def width (exts : List Extension) : ℕ :=
  widthWith (declares exts .cache) (declares exts .mdbox) (declares exts .guid)

theorem width_lt (exts : List Extension) : width exts < 65536 := by
  have bound : ∀ cache mdbox guid, widthWith cache mdbox guid < 65536 := by decide
  exact bound _ _ _

def sample (cache mdbox guid : Bool) : List Extension :=
  (recordExtsWith cache mdbox guid).map fun x => Folder.declare x [] 0

theorem sample_layout (cache mdbox guid : Bool) : ((sample cache mdbox guid).map name).Nodup ∧
      ∃ layout, computeRecordLayout .insertion (sample cache mdbox guid) = .ok layout ∧
        layout.recordSize = widthWith cache mdbox guid := by
  cases cache <;> cases mdbox <;> cases guid <;> exact ⟨by decide, _, rfl, rfl⟩

section

variable (declared : Declared exts)

include declared

theorem Declared.mem_claims {c : Claim} : c ∈ claims exts ↔
      ∃ x, declares exts x ∧ x.recordSize ≠ 0 ∧ c = ⟨x.name, x.recordSize, x.recordAlign⟩ := by
  constructor
  · intro member
    obtain ⟨e, held, rfl⟩ := mem_map.mp member
    obtain ⟨inside, room⟩ := mem_filter.mp held
    obtain ⟨x, is⟩ := declared.known e inside
    refine ⟨x, ?_, ?_, ?_⟩
    · exact mem_map.mpr ⟨e, inside, is.name⟩
    · rw [← is.recordSize]
      simpa using room
    · rw [claim, is.name, is.recordSize, is.recordAlign]
  · rintro ⟨x, declares, room, rfl⟩
    obtain ⟨e, inside, name⟩ := mem_map.mp declares
    obtain ⟨y, is⟩ := declared.known e inside
    obtain rfl : x = y := Ext.name_injective (name.symm.trans is.name)
    refine mem_map.mpr ⟨e, mem_filter.mpr ⟨inside, ?_⟩, ?_⟩
    · rw [is.recordSize]
      simpa using room
    · rw [claim, is.name, is.recordSize, is.recordAlign]

theorem Declared.claims_nodup : (claims exts).Nodup := by
  have names : ((claims exts).map Claim.name).Nodup := by
    have sub : List.Sublist ((claims exts).map Claim.name) (exts.map name) := by
      rw [claims, map_map]
      exact (filter_sublist ..).map name
    exact declared.distinct.sublist sub
  exact names.of_map _

/-- Lists that declare the same record extensions claim the same. -/
theorem Declared.claims_perm (declared' : Declared exts')
    (same : ∀ x ∈ Ext.later, declares exts x ↔ declares exts' x) : (claims exts).Perm (claims exts') := by
  rw [perm_ext_iff_of_nodup declared.claims_nodup declared'.claims_nodup]
  have both : ∀ x : Ext, x.recordSize ≠ 0 → (declares exts x ↔ declares exts' x) := by
    have covered : ∀ x ∈ Ext.all, x.recordSize ≠ 0 → x ∈ Ext.core ∨ x ∈ Ext.later := by decide
    intro x room
    rcases covered x x.mem_all room with core | later
    · exact ⟨fun _ => declared'.core x core, fun _ => declared.core x core⟩
    · exact same x later
  intro c
  rw [declared.mem_claims, declared'.mem_claims]
  constructor
  · rintro ⟨x, held, room, eq⟩
    exact ⟨x, (both x room).mp held, room, eq⟩
  · rintro ⟨x, held, room, eq⟩
    exact ⟨x, (both x room).mpr held, room, eq⟩

theorem Declared.sample_perm :
    (claims (sample (declares exts .cache) (declares exts .mdbox) (declares exts .guid))).Perm
      (claims exts) := by
  have plain : ∀ cache mdbox guid, (claims (sample cache mdbox guid)).Nodup ∧
      ∀ c, c ∈ claims (sample cache mdbox guid) ↔ ∃ x ∈ recordExtsWith cache mdbox guid,
        c = ⟨x.name, x.recordSize, x.recordAlign⟩ := by
    intro cache mdbox guid
    constructor
    · cases cache <;> cases mdbox <;> cases guid <;> decide
    · have whole : claims (sample cache mdbox guid) =
          (recordExtsWith cache mdbox guid).map fun x => ⟨x.name, x.recordSize, x.recordAlign⟩ := by
        cases cache <;> cases mdbox <;> cases guid <;> rfl
      intro c
      rw [whole, mem_map]
      exact ⟨fun ⟨x, held, eq⟩ => ⟨x, held, eq.symm⟩, fun ⟨x, held, eq⟩ => ⟨x, held, eq.symm⟩⟩
  obtain ⟨nodup, members⟩ := plain (declares exts .cache) (declares exts .mdbox) (declares exts .guid)
  rw [perm_ext_iff_of_nodup nodup declared.claims_nodup]
  intro c
  rw [members, declared.mem_claims]
  constructor
  · rintro ⟨x, held, eq⟩
    obtain ⟨room, cache, mdbox, guid⟩ := mem_recordExtsWith.mp held
    refine ⟨x, ?_, room, eq⟩
    cases x with
    | cache => exact of_decide_eq_true (cache rfl)
    | mdbox => exact of_decide_eq_true (mdbox rfl)
    | guid => exact of_decide_eq_true (guid rfl)
    | modSeq | keywords | internalDate | vsize => exact declared.core _ (by decide)
    | dboxHdr | hdrVsize | lineage | expungeFloor | uidNames => exact absurd rfl room
  · rintro ⟨x, held, room, eq⟩
    refine ⟨x, mem_recordExtsWith.mpr ⟨room, ?_, ?_, ?_⟩, eq⟩
    · rintro rfl
      exact decide_eq_true held
    · rintro rfl
      exact decide_eq_true held
    · rintro rfl
      exact decide_eq_true held

/-- The layout exists, and its size is settled by what is declared. -/
theorem Declared.layout (s : Sorter) :
    ∃ layout, computeRecordLayout s exts = .ok layout ∧ layout.recordSize = width exts := by
  obtain ⟨distinct, layout, done, size⟩ :=
    sample_layout (declares exts .cache) (declares exts .mdbox) (declares exts .guid)
  obtain ⟨layout', done', size', -⟩ :=
    computeRecordLayout_congr s distinct declared.sample_perm declared.check done
  exact ⟨layout', done', size'.trans size⟩

/-- Lists that declare the same record extensions place the values alike. -/
theorem Declared.layout_congr {s : Sorter} (declared' : Declared exts')
    (same : ∀ x ∈ Ext.later, declares exts x ↔ declares exts' x) {layout layout' : RecordLayout}
    (done : computeRecordLayout s exts = .ok layout) (done' : computeRecordLayout s exts' = .ok layout') :
    layout'.recordSize = layout.recordSize ∧
      stretches layout'.extensions = stretches layout.extensions := by
  obtain ⟨other, found, size, places⟩ := computeRecordLayout_congr s declared.distinct
    (declared.claims_perm declared' same) declared'.check done
  cases found.symm.trans done'
  exact ⟨size, places⟩

end

/-! ## Changes to the list -/

theorem mem_names : declares exts x ↔ ∃ e ∈ exts, e.name = x.name := List.mem_map

/-- New header data and reset ids leave the list declared. -/
theorem Declared.map (declared : Declared exts) {change : Extension → Extension}
    (name : ∀ e, (change e).name = e.name) (kept : ∀ e x, IsExt e x → IsExt (change e) x) :
    Declared (exts.map change) ∧ ∀ x, declares (exts.map change) x ↔ declares exts x := by
  have names : (exts.map change).map Extension.name = exts.map Extension.name := by
    rw [map_map]
    exact map_congr_left fun e _ => name e
  refine ⟨⟨?_, by rw [names]; exact declared.distinct, ?_⟩, ?_⟩
  · intro e member
    obtain ⟨e, held, rfl⟩ := mem_map.mp member
    obtain ⟨x, is⟩ := declared.known e held
    exact ⟨x, kept e x is⟩
  · intro x core
    unfold declares
    rw [names]
    exact declared.core x core
  · intro x
    unfold declares
    rw [names]

theorem Declared.push (declared : Declared exts) (absent : ¬ declares exts x)
    (bounded : data.length < x.dataLimit) (resetID : UInt32) :
    Declared (exts ++ [Folder.declare x data resetID]) where
  known := forall_mem_concat declared.known ⟨x, rfl, rfl, rfl, rfl, bounded⟩
  distinct := by
    rw [map_append]
    exact nodup_concat declared.distinct absent
  core := by
    intro y core
    rw [declares, map_append]
    exact mem_append_left _ (declared.core y core)

theorem declares_push {resetID : UInt32} :
    declares (exts ++ [Folder.declare x data resetID]) y ↔ declares exts y ∨ y = x := by
  rw [declares, map_append, mem_append]
  refine or_congr .rfl ?_
  simp only [map_cons, map_nil, mem_singleton, Folder.declare]
  exact ⟨fun same => Ext.name_injective same, fun same => by rw [same]⟩

theorem IsExt.unplaced {f : Extension} (is : IsExt e x) (same : e.unplaced = f.unplaced) : IsExt f x := by
  have name := congrArg Extension.name same
  have size := congrArg Extension.recordSize same
  have align := congrArg Extension.recordAlign same
  have hdrSize := congrArg Extension.hdrSize same
  have data := congrArg hdrData same
  simp only [Extension.unplaced] at name size align hdrSize data
  exact ⟨name ▸ is.name, size ▸ is.recordSize, align ▸ is.recordAlign, by
    rw [← hdrSize, ← data]; exact is.hdrSize, by rw [← data]; exact is.bounded⟩

/-- So does giving the extensions their places. -/
theorem Declared.placed {s : Sorter} {exts : List Extension} (declared : Declared exts)
    {layout : RecordLayout} (done : computeRecordLayout s exts = .ok layout) :
    Declared layout.extensions ∧ ∀ x, declares layout.extensions x ↔ declares exts x := by
  have perm := computeRecordLayout_perm done
  have names : (layout.extensions.map name).Perm (exts.map name) := by
    have mapped := perm.map name
    rwa [map_name_unplaced, map_name_unplaced] at mapped
  refine ⟨⟨?_, names.nodup_iff.mpr declared.distinct, ?_⟩, fun x => names.mem_iff⟩
  · intro e member
    obtain ⟨f, held, same⟩ := mem_map.mp (perm.subset (mem_map_of_mem member))
    obtain ⟨x, is⟩ := declared.known f held
    exact ⟨x, is.unplaced same⟩
  · intro x core
    exact names.mem_iff.mpr (declared.core x core)

/-! ## The extended header -/

/-- Room for an entry of the extended header. -/
def Ext.entryLimit (x : Ext) : ℕ := x.dataLimit + 48

theorem IsExt.entryLength_le (is : IsExt e x) : e.entryLength ≤ x.entryLimit := by
  have short : ∀ x ∈ Ext.all, x.name.length ≤ 16 := by decide
  have name := short x x.mem_all
  have bounded := is.bounded
  unfold entryLength dataStart up8 Ext.entryLimit
  rw [is.name]
  omega

theorem Declared.extHeadersLength_lt (declared : Declared exts) :
    headerMinSize + extHeadersLength exts + 7 < 2 ^ 32 := by
  choose kind is using declared.known
  have kinds : (exts.attach.map fun e => kind e.1 e.2).Nodup := by
    refine .map_on ?_ (nodup_attach.mpr (declared.distinct.of_map _))
    intro e _ f _ same
    have names := (is e.1 e.2).name
    rw [same, ← (is f.1 f.2).name] at names
    exact Subtype.ext (eq_of_name_eq declared.distinct e.2 f.2 names)
  have inside := subperm_of_subset kinds fun x _ => x.mem_all
  have total : extHeadersLength exts ≤
      ((exts.attach.map fun e => kind e.1 e.2).map Ext.entryLimit).sum := by
    unfold extHeadersLength
    rw [map_map]
    conv_lhs => rw [← attach_map_subtype_val exts, map_map]
    exact sum_le_sum fun e _ => (is e.1 e.2).entryLength_le
  have whole : ((exts.attach.map fun e => kind e.1 e.2).map Ext.entryLimit).sum ≤
      (Ext.all.map Ext.entryLimit).sum := by
    obtain ⟨l, perm, sub⟩ := inside
    rw [← (perm.map Ext.entryLimit).sum_eq]
    exact (sub.map Ext.entryLimit).sum_le_sum (by simp)
  have most : headerMinSize + (Ext.all.map Ext.entryLimit).sum + 7 < 2 ^ 32 := by decide
  omega

theorem Declared.encodeExtHeaders (declared : Declared exts) :
    MailIndex.encodeExtHeaders exts = .ok (exts.flatMap entryBytes) := by
  have small := declared.extHeadersLength_lt
  apply encodeExtHeaders_eq
  · intro e member
    obtain ⟨x, is⟩ := declared.known e member
    have bounded := is.bounded.trans_le (dataLimit_le x)
    exact encodable_of_check is.check (by omega)
  · omega

end Yarilo.FolderLayout
