import JarRemap.Host.Directory
import Mathlib.Data.List.Infix

/-!
# Files that are written

A path leads only to places below directories, so putting a file there makes no new directory and
takes none away (`Directory.isDirectory_put`). Paths then lead to the same places as before: the
file is found where it was written (`Directory.look_write_self`), and where there was a file there
still is one (`Directory.exists_look_write`).
-/

namespace JarRemap.Directory

variable {d d' : Directory} {place : Place} {path : String} {data : Bytes}

/-! ## Directories -/

theorem isDirectory_iff : d.isDirectory place = true ↔
    place = [] ∨ ∃ f ∈ d.files, place.length < f.1.length ∧ place <+: f.1 := by
  simp [isDirectory, List.isPrefixOf_iff_prefix]

/-- All that leads to the place are directories. -/
def Reaches (d : Directory) (place : Place) : Prop :=
  ∀ front, front <+: place → front.length < place.length → d.isDirectory front = true

theorem isDirectory_put (h : d.Reaches place) (data : Bytes) (other : Place) :
    (d.put place data).isDirectory other = d.isDirectory other := by
  rw [Bool.eq_iff_iff]
  constructor
  · intro hother
    rcases isDirectory_iff.1 hother with rfl | ⟨f, hf, hlength, hfront⟩
    · exact isDirectory_iff.2 (.inl rfl)
    rcases List.mem_append.1 hf with hf | hf
    · exact isDirectory_iff.2 (.inr ⟨f, (List.mem_filter.1 hf).1, hlength, hfront⟩)
    · obtain rfl := List.mem_singleton.1 hf
      exact h other hfront hlength
  · intro hother
    rcases isDirectory_iff.1 hother with rfl | ⟨f, hf, hlength, hfront⟩
    · exact isDirectory_iff.2 (.inl rfl)
    refine isDirectory_iff.2 (.inr ?_)
    by_cases hplace : f.1 = place
    · exact ⟨(place, data), by simp [put], hplace ▸ hlength, hplace ▸ hfront⟩
    · exact ⟨f, by simp [put, hf, hplace], hlength, hfront⟩

theorem Reaches.step (h : d.Reaches place) {name : String} {next : Place}
    (hstep : d.step place name = some next) : d.Reaches next := by
  rw [Directory.step] at hstep
  by_cases hdir : d.isDirectory place = true
  swap
  · simp [hdir] at hstep
  simp only [hdir, Bool.not_true, Bool.false_eq_true, if_false] at hstep
  intro front hfront hlength
  split at hstep
  · cases hstep
    exact h front hfront hlength
  split at hstep
  · split at hstep
    · cases hstep
    · cases hstep
      have hshorter := List.dropLast_prefix place
      exact h front (hfront.trans hshorter) (lt_of_lt_of_le hlength hshorter.length_le)
  split at hstep
  · cases hstep
    -- A front of the longer place is the place itself, or a front of it.
    rcases List.prefix_concat_iff.1 hfront with rfl | hfront
    · exact absurd hlength (lt_irrefl _)
    · rcases hfront.length_le.lt_or_eq with hlt | heq
      · exact h front hfront hlt
      · rwa [hfront.eq_of_length heq]
  · cases hstep

/-- Paths lead to places below directories. -/
theorem reaches_of_place? (h : d.place? path = some place) : d.Reaches place := by
  have hwalk : ∀ (names : List String) (start : Place), d.Reaches start →
      names.foldlM d.step start = some place → d.Reaches place := by
    intro names
    induction names with
    | nil =>
      intro start hstart hnames
      obtain rfl : start = place := Option.some.inj hnames
      exact hstart
    | cons name names ih =>
      intro start hstart hnames
      rw [List.foldlM_cons] at hnames
      obtain ⟨next, hnext, hnames⟩ := Option.bind_eq_some_iff.1 hnames
      exact ih next (hstart.step hnext) hnames
  rw [place?] at h
  split at h
  · cases h
  · exact hwalk _ [] (fun front _ hlength => absurd hlength (by simp)) h

/-- Paths lead where they led before. -/
theorem place?_put (h : d.Reaches place) (data : Bytes) (path : String) :
    (d.put place data).place? path = d.place? path := by
  have hstep : (d.put place data).step = d.step := by
    funext start name
    rw [Directory.step, Directory.step, isDirectory_put h]
  rw [place?, place?, hstep]

/-! ## Files -/

theorem lookup_put_self (d : Directory) (place : Place) (data : Bytes) :
    (d.put place data).files.lookup place = some data := by
  have hnone : (d.files.filter (·.1 != place)).lookup place = none := by
    refine List.lookup_eq_none_iff.2 fun f hf => ?_
    exact bne_iff_ne.2 (bne_iff_ne.1 (List.mem_filter.1 hf).2).symm
  rw [put, List.lookup_append, hnone]
  simp

theorem lookup_put_of_ne {other : Place} (h : other ≠ place) :
    (d.put place data).files.lookup other = d.files.lookup other := by
  have hfilter : (d.files.filter (·.1 != place)).lookup other = d.files.lookup other := by
    induction d.files with
    | nil => rfl
    | cons f files ih =>
      by_cases hplace : f.1 = place
      · have hother : (other == f.1) = false := beq_eq_false_iff_ne.2 (hplace ▸ h)
        rw [List.filter_cons_of_neg (by simp [hplace]), ih, List.lookup_cons, hother]
      · rw [List.filter_cons_of_pos (by simp [hplace]), List.lookup_cons, List.lookup_cons, ih]
  rw [put, List.lookup_append, hfilter, List.lookup_cons, beq_eq_false_iff_ne.2 h]
  simp

theorem write_eq_some_iff : d.write path data = some d' ↔
    ∃ place, d.place? path = some place ∧ d.isDirectory place = false ∧ d' = d.put place data := by
  rw [write]
  rcases d.place? path with _ | place
  · simp
  · by_cases hdir : d.isDirectory place = true
    · simp [hdir]
    · simp [hdir, eq_comm (a := d')]

theorem look_eq_file_iff : d.look path = .file data ↔ ∃ place, d.place? path = some place ∧
    d.isDirectory place = false ∧ d.files.lookup place = some data := by
  rw [look]
  rcases d.place? path with _ | place
  · simp
  · by_cases hdir : d.isDirectory place = true
    · simp [hdir]
    · rcases hlookup : d.files.lookup place with _ | found <;> simp [hdir, hlookup]

/-- What is written is there. -/
theorem look_write_self (h : d.write path data = some d') : d'.look path = .file data := by
  obtain ⟨place, hplace, hdir, rfl⟩ := write_eq_some_iff.1 h
  have hreaches := reaches_of_place? hplace
  exact look_eq_file_iff.2 ⟨place, (place?_put hreaches data path).trans hplace,
    (isDirectory_put hreaches data place).trans hdir, lookup_put_self d place data⟩

/-- Where there is a file there still is one. -/
theorem exists_look_write (h : d.write path data = some d') {other : String} {old : Bytes}
    (hother : d.look other = .file old) : ∃ new, d'.look other = .file new := by
  obtain ⟨place, hplace, -, rfl⟩ := write_eq_some_iff.1 h
  have hreaches := reaches_of_place? hplace
  obtain ⟨q, hq, hdir, hlookup⟩ := look_eq_file_iff.1 hother
  have hfound : ∃ new, (d.put place data).files.lookup q = some new := by
    by_cases hsame : q = place
    · exact ⟨data, hsame ▸ lookup_put_self d place data⟩
    · exact ⟨old, (lookup_put_of_ne hsame).trans hlookup⟩
  obtain ⟨new, hnew⟩ := hfound
  exact ⟨new, look_eq_file_iff.2 ⟨q, (place?_put hreaches data other).trans hq,
    (isDirectory_put hreaches data q).trans hdir, hnew⟩⟩

end JarRemap.Directory

namespace JarRemap

/-! ## Text in files -/

theorem toList_loop_eq (b : ByteArray) (i : Nat) (r : List UInt8) :
    ByteArray.toList.loop b i r = r.reverse ++ b.data.toList.drop i := by
  induction i, r using ByteArray.toList.loop.induct b with
  | case1 i r hlt ih =>
    have hlength : i < b.data.toList.length := by simpa using hlt
    have hget : b.get! i = b.data.toList[i] := by
      rw [ByteArray.get!, Array.getElem_toList]
      exact getElem!_pos b.data i (by simpa using hlt)
    rw [ByteArray.toList.loop, if_pos hlt, ih, List.drop_eq_getElem_cons hlength, hget]
    simp
  | case2 i r hge =>
    have hlength : b.data.toList.length ≤ i := by simpa using hge
    rw [ByteArray.toList.loop, if_neg hge, List.drop_eq_nil_of_le hlength, List.append_nil]

/-- The bytes of a text are read as the text. -/
theorem fromUTF8?_toList_toUTF8 (text : String) :
    String.fromUTF8? ⟨text.toUTF8.toList.toArray⟩ = some text := by
  have hbytes : (⟨text.toUTF8.toList.toArray⟩ : ByteArray) = text.toByteArray := by
    rw [ByteArray.toList, toList_loop_eq, String.toUTF8_eq_toByteArray]
    simp
  rw [hbytes, String.fromUTF8?, dif_pos text.isValidUTF8]
  rfl

namespace Session

variable {s s' : Session} {path text : String}

/-- Writing a text changes the directory only, by a file that holds the text. -/
theorem writeText_eq_true_iff : host.writeText path text s = (true, s') ↔
    ∃ d, s.directory.write path text.toUTF8.toList = some d ∧ s' = { s with directory := d } := by
  have hwrite : host.writeText path text s = write path text.toUTF8.toList s := rfl
  rw [hwrite, write]
  rcases s.directory.write path text.toUTF8.toList with _ | d
  · exact iff_of_false (fun h => by cases h) (by simp)
  · constructor
    · rintro ⟨⟩
      exact ⟨d, rfl, rfl⟩
    · rintro ⟨_, ⟨⟩, rfl⟩
      rfl

/-- A text that was written is read. -/
theorem text?_of_write {d : Directory}
    (h : d.write path text.toUTF8.toList = some s.directory) :
    host.text? path s = (some text, s) := by
  have hread : host.text? path s = (((s.directory.look path).file?.bind fun data =>
    String.fromUTF8? ⟨data.toArray⟩), s) := rfl
  rw [hread, Directory.look_write_self h, Found.file?, Option.bind_some, fromUTF8?_toList_toUTF8]

end Session

end JarRemap
