import ThreeAddress.Files
import ThreeAddress.Proofs.Success

/-!
# Reading what was written

A path is followed through folders to a place, where there is a file or can be
one.  A file is only made in a folder that is there.  So writing does not
change what is a folder, every path leads where it led before, and what is
read there depends on the place alone: the new text if it is the place of the
file that was written, and what was there before otherwise.
-/

namespace ThreeAddress

namespace Folder

/-- What there is at a place that is no folder. -/
def fileAt (folder : Folder) (place : List String) : Target :=
  match folder.files.lookup place with
  | some contents => .file place contents
  | none => .nothing place

/-- The path leads to the file at a place, or to where it can be made. -/
def LeadsTo (folder : Folder) (path : Path) (place : List String) : Prop :=
  folder.find path = .ok (folder.fileAt place)

/-- A segment that can be the name of a file. -/
structure IsFileName (segment : String) : Prop where
  leads : Path.isIdle segment = false
  down : segment ≠ ".."
  short : segment.utf8ByteSize ≤ segmentLimit

variable {folder : Folder} {path : Path} {place : List String}

theorem fileAt_of_lookup
    {contents : Contents}
    (h : folder.files.lookup place = some contents) :
    folder.fileAt place = .file place contents := by
  rw [fileAt, h]

theorem fileAt_of_lookup_eq_none
    (h : folder.files.lookup place = none) :
    folder.fileAt place = .nothing place := by
  rw [fileAt, h]

theorem fileAt_ne_folder : folder.fileAt place ≠ .folder := by
  cases h : folder.files.lookup place with
  | none => simp [fileAt_of_lookup_eq_none h]
  | some contents => simp [fileAt_of_lookup h]

theorem eq_of_fileAt_eq
    {other : List String}
    (h : folder.fileAt place = folder.fileAt other) :
    place = other := by
  unfold fileAt at h
  split at h <;> split at h <;> simp_all

/-! ## Following a path -/

theorem look_eq_folder_iff
    {segment : String} :
    folder.look place segment = .ok .folder ↔
      Path.isIdle segment = true ∨ segment = ".." ∨
      segment.utf8ByteSize ≤ segmentLimit ∧
      folder.isFolder (place ++ [segment]) = true := by
  unfold look
  grind

theorem look_of_isFileName
    {segment : String}
    (h : IsFileName segment)
    (hfolder : folder.isFolder (place ++ [segment]) = false) :
    folder.look place segment = .ok (folder.fileAt (place ++ [segment])) := by
  have hlong : ¬segmentLimit < segment.utf8ByteSize := by
    have := h.short
    omega
  simp only [look, h.leads, h.down, hlong, hfolder]
  cases hlookup : folder.files.lookup (place ++ [segment]) with
  | none => simp [fileAt_of_lookup_eq_none hlookup]
  | some contents => simp [fileAt_of_lookup hlookup]

theorem look_cases
    {segment : String} {target : Target}
    (h : folder.look place segment = .ok target) :
    target = .folder ∨
      IsFileName segment ∧ folder.isFolder (place ++ [segment]) = false ∧
      target = folder.fileAt (place ++ [segment]) := by
  by_cases hfolder : folder.look place segment = .ok .folder
  · exact .inl (Except.ok.inj (h.symm.trans hfolder))
  · have hname : IsFileName segment ∧
        folder.isFolder (place ++ [segment]) = false := by
      rw [look_eq_folder_iff] at hfolder
      push Not at hfolder
      obtain ⟨hidle, hdown, hnot⟩ := hfolder
      have hshort : segment.utf8ByteSize ≤ segmentLimit := by
        by_contra hlong
        simp [look, hidle, hdown, not_le.mp hlong] at h
      exact ⟨⟨by simpa using hidle, hdown, hshort⟩,
        by simpa using hnot hshort⟩
    have hlook := look_of_isFileName hname.1 hname.2
    exact .inr ⟨hname.1, hname.2, Except.ok.inj (h.symm.trans hlook)⟩

theorem isFolder_iff :
    folder.isFolder place = true ↔ (∀ segment ∈ place, segment = "..") ∨
      (∃ given ∈ folder.folders, place <+: given) ∨
      ∃ file ∈ folder.files, place <+: file.1 ∧ place ≠ file.1 := by
  have hproper : ∀ name : List String,
      (place <+: name ∧ place.length < name.length) ↔
        (place <+: name ∧ place ≠ name) := by
    intro name
    refine and_congr_right fun houter => ⟨?_, ?_⟩
    · rintro hlength rfl
      exact Nat.lt_irrefl _ hlength
    · intro hne
      exact lt_of_le_of_ne houter.length_le (mt houter.eq_of_length hne)
  simp only [isFolder, Bool.or_eq_true, List.any_eq_true, List.all_eq_true,
    List.isPrefixOf_iff_prefix, Bool.and_eq_true, decide_eq_true_eq,
      hproper, or_assoc]

theorem isFolder_of_prefix
    {outer : List String}
    (h : folder.isFolder place = true)
    (houter : outer <+: place) :
    folder.isFolder outer = true := by
  rcases isFolder_iff.mp h with
    hup | ⟨given, hgiven, hbelow⟩ | ⟨file, hfile, hbelow, hne⟩
  · exact isFolder_iff.mpr
      (.inl fun segment hsegment => hup segment (houter.subset hsegment))
  · exact isFolder_iff.mpr (.inr (.inl ⟨given, hgiven, houter.trans hbelow⟩))
  · refine isFolder_iff.mpr
      (.inr (.inr ⟨file, hfile, houter.trans hbelow, ?_⟩))
    rintro rfl
    exact hne (hbelow.eq_of_length_le houter.length_le)

theorem isFolder_up
    (h : folder.isFolder place = true) :
    folder.isFolder (up place) = true := by
  unfold up
  split
  · next hall =>
      have hup : (place ++ [".."]).all (· = "..") = true := by
        rw [List.all_append, hall]
        rfl
      rw [isFolder, hup]
      rfl
  · exact isFolder_of_prefix h (List.dropLast_prefix place)

theorem walk_cons_eq_ok_iff
    {segment : String} {rest place' : List String} :
    folder.walk place (segment :: rest) = .ok place' ↔
      folder.look place segment = .ok .folder ∧
        folder.walk
          (if Path.isIdle segment then place
            else if segment = ".." then up place
            else place ++ [segment]) rest = .ok place' := by
  rw [walk, Success.bind_eq_ok_iff]
  constructor
  · rintro ⟨target, hlook, h⟩
    cases target with
    | folder => exact ⟨hlook, h⟩
    | file place contents | nothing place => simp at h
  · rintro ⟨hlook, h⟩
    exact ⟨.folder, hlook, h⟩

theorem isFolder_of_walk
    {segments place' : List String}
    (h : folder.walk place segments = .ok place')
    (hplace : folder.isFolder place = true) :
    folder.isFolder place' = true := by
  induction segments generalizing place with
  | nil =>
      obtain rfl : place = place' := by simpa [walk] using h
      exact hplace
  | cons segment rest ih =>
      obtain ⟨hlook, hrest⟩ := walk_cons_eq_ok_iff.mp h
      refine ih hrest ?_
      rcases look_eq_folder_iff.mp hlook with hidle | rfl | ⟨_, hfolder⟩
      · simpa [hidle] using hplace
      · simpa [Path.isIdle] using isFolder_up hplace
      · split_ifs
        · exact hplace
        · exact isFolder_up hplace
        · exact hfolder

theorem leadsTo_iff :
    folder.LeadsTo path place ↔ checkName path = .ok () ∧
      ∃ parent segment, folder.walk [] path.segments.dropLast = .ok parent ∧
        path.segments.getLast?.getD "" = segment ∧ IsFileName segment ∧
        place = parent ++ [segment] ∧ folder.isFolder place = false := by
  simp only [LeadsTo, find, Success.bind_eq_ok_iff]
  constructor
  · rintro ⟨⟨⟩, hname, parent, hwalk, hlook⟩
    rcases look_cases hlook with htarget | ⟨hsegment, hfolder, htarget⟩
    · exact absurd htarget fileAt_ne_folder
    · obtain rfl := eq_of_fileAt_eq htarget
      exact ⟨hname, parent, _, hwalk, rfl, hsegment, rfl, hfolder⟩
  · rintro ⟨hname, parent, segment, hwalk, rfl, hsegment, rfl, hfolder⟩
    exact ⟨(), hname, parent, hwalk, look_of_isFileName hsegment hfolder⟩

theorem find_cases
    {target : Target}
    (h : folder.find path = .ok target) :
    target = .folder ∨
      ∃ place, folder.LeadsTo path place ∧ target = folder.fileAt place := by
  have hfind := h
  simp only [find, Success.bind_eq_ok_iff] at hfind
  obtain ⟨_, _, parent, _, hlook⟩ := hfind
  rcases look_cases hlook with rfl | ⟨_, _, rfl⟩
  · exact .inl rfl
  · exact .inr ⟨_, h, rfl⟩

theorem LeadsTo.unique
    {other : List String}
    (h : folder.LeadsTo path place)
    (hother : folder.LeadsTo path other) :
    place = other :=
  eq_of_fileAt_eq (Except.ok.inj (h.symm.trans hother))

theorem LeadsTo.read_of_text
    (h : folder.LeadsTo path place)
    {text : String}
    (htext : folder.files.lookup place = some (.text text)) :
    folder.read path = .ok text := by
  rw [LeadsTo, fileAt_of_lookup htext] at h
  simp [read, h]

/-- What is read depends on the place alone. -/
theorem LeadsTo.read_congr
    (h : folder.LeadsTo path place)
    {other : Path}
    (hother : folder.LeadsTo other place) :
    folder.read path = folder.read other := by
  rw [read, read, h, hother]

/-! ## Other contents at a place -/

theorem lookup_put_self
    (contents : Contents) :
    (folder.put place contents).files.lookup place = some contents := by
  simp [put]

theorem lookup_put_of_ne
    {other : List String} (contents : Contents)
    (h : other ≠ place) :
    (folder.put place contents).files.lookup other =
      folder.files.lookup other := by
  have hne : (other == place) = false := beq_false_of_ne h
  rw [put, List.lookup_cons, hne]
  dsimp only
  induction folder.files with
  | nil => rfl
  | cons file files ih =>
      obtain ⟨name, old⟩ := file
      by_cases hname : name = place
      · subst hname
        rw [List.filter_cons_of_neg (by simp), ih, List.lookup_cons, hne]
      · rw [List.filter_cons_of_pos (by simpa using hname), List.lookup_cons,
          List.lookup_cons, ih]

/-- A new file in a folder makes no other folder. -/
theorem isFolder_put
    {parent : List String}
    (hparent : folder.isFolder parent = true)
    (segment : String) (contents : Contents) (place : List String) :
    (folder.put (parent ++ [segment]) contents).isFolder place =
      folder.isFolder place := by
  rw [Bool.eq_iff_iff]
  constructor
  · intro h
    rcases isFolder_iff.mp h with hup | hgiven | ⟨file, hfile, houter, hne⟩
    · exact isFolder_iff.mpr (.inl hup)
    · exact isFolder_iff.mpr (.inr (.inl hgiven))
    · rcases List.mem_cons.mp hfile with rfl | hfile
      · rcases List.prefix_concat_iff.mp houter with heq | houter
        · exact absurd heq hne
        · exact isFolder_of_prefix hparent houter
      · exact isFolder_iff.mpr
          (.inr (.inr ⟨file, (List.mem_filter.mp hfile).1, houter, hne⟩))
  · intro h
    rcases isFolder_iff.mp h with hup | hgiven | ⟨file, hfile, houter, hne⟩
    · exact isFolder_iff.mpr (.inl hup)
    · exact isFolder_iff.mpr (.inr (.inl hgiven))
    · refine isFolder_iff.mpr (.inr (.inr ?_))
      by_cases hsame : file.1 = parent ++ [segment]
      · exact ⟨_, List.mem_cons_self, hsame ▸ houter, hsame ▸ hne⟩
      · exact ⟨file, List.mem_cons_of_mem _
          (List.mem_filter.mpr ⟨hfile, by simpa using hsame⟩), houter, hne⟩

theorem walk_congr
    {other : Folder}
    (h : ∀ place, other.isFolder place = folder.isFolder place)
    {segments place' : List String} :
    other.walk place segments = .ok place' ↔
      folder.walk place segments = .ok place' := by
  induction segments generalizing place with
  | nil => rfl
  | cons segment rest ih =>
      rw [walk_cons_eq_ok_iff, walk_cons_eq_ok_iff, look_eq_folder_iff,
        look_eq_folder_iff, h, ih]

/-- Where a path leads is a matter of what is a folder. -/
theorem leadsTo_congr
    {other : Folder}
    (h : ∀ place, other.isFolder place = folder.isFolder place) :
    other.LeadsTo path place ↔ folder.LeadsTo path place := by
  simp only [leadsTo_iff, walk_congr h, h]

theorem LeadsTo.leadsTo_put_iff
    (h : folder.LeadsTo path place)
    {other : Path} {otherPlace : List String} (contents : Contents) :
    (folder.put place contents).LeadsTo other otherPlace ↔
      folder.LeadsTo other otherPlace := by
  obtain ⟨_, parent, segment, hwalk, _, _, rfl, _⟩ := leadsTo_iff.mp h
  have hparent : folder.isFolder parent = true := isFolder_of_walk hwalk rfl
  exact leadsTo_congr (isFolder_put hparent segment contents)

theorem exists_leadsTo_of_write
    {text : String} {after : Folder}
    (h : folder.write path text = .ok after) :
    ∃ place, folder.LeadsTo path place ∧
      after = folder.put place (.text text) := by
  simp only [write, Success.bind_eq_ok_iff] at h
  obtain ⟨_, _, h⟩ := h
  split_ifs at h
  · simp at h
  · simp only [Success.bind_eq_ok_iff] at h
    obtain ⟨target, hfind, hput⟩ := h
    rcases find_cases hfind with rfl | ⟨place, hleads, rfl⟩
    · simp at hput
    · refine ⟨place, hleads, ?_⟩
      cases hlookup : folder.files.lookup place with
      | none =>
          rw [fileAt_of_lookup_eq_none hlookup] at hput
          exact (Success.pure_eq_ok_iff.mp hput).symm
      | some old =>
          rw [fileAt_of_lookup hlookup] at hput
          exact (Success.pure_eq_ok_iff.mp hput).symm

end Folder

end ThreeAddress
