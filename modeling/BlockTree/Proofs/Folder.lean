import BlockTree.Folder

/-!
# Files that are saved

A file can be saved where its path leads to a name of which there is no folder, and it is read as
it was saved: `Folder.Addresses.save` and `Folder.Addresses.read`. Paths lead past folders only, so
a file that is saved stands in the way of no other: `Folder.Addresses.keep`. Files with different
names are all there in the end: `Folder.exists_saveAll`.
-/

namespace BlockTree

-- ---------------------------------------------------------------------------
-- Names on a path
-- ---------------------------------------------------------------------------

namespace PathName

theorem startsWith_slash (path : String) :
    path.startsWith "/" = (path.toList.head? == some '/') := by
  have hslash : "/".toList = ['/'] := rfl
  rw [Bool.eq_iff_iff, String.startsWith_string_iff, hslash,
    List.singleton_prefix_iff_head?_eq_some, beq_iff_eq]

theorem endsWith_slash (path : String) :
    path.endsWith "/" = (path.toList.getLast? == some '/') := by
  have hslash : "/".toList = ['/'] := rfl
  rw [Bool.eq_iff_iff, String.endsWith_eq_endsWith_toSlice, String.Slice.endsWith_string_iff,
    hslash, String.copy_toSlice, List.singleton_suffix_iff_getLast?_eq_some, beq_iff_eq]

theorem parse_of_relative {path : String} (hchars : '\x00' ∉ path.toList) (hne : path ≠ "")
    (hshort : path.utf8ByteSize ≤ longestPath) (hstart : path.toList.head? ≠ some '/')
    (hend : path.toList.getLast? ≠ some '/') :
    parse path =
      .ok ⟨false, ((path.toList.splitOn '/').map String.ofList).filter (· ≠ ""), false⟩ := by
  simp [parse, ofString, String.contains_char_eq, startsWith_slash, endsWith_slash, hchars, hne,
    Nat.not_lt.mpr hshort, hstart, hend]

theorem exists_splitOn_append {tail : List Char} (h : '/' ∉ tail) (text : List Char) :
    ∃ front stem, (text ++ tail).splitOn '/' = front ++ [stem ++ tail] := by
  induction text with
  | nil => exact ⟨[], [], List.splitOn_eq_singleton h⟩
  | cons c rest ih =>
    obtain ⟨front, stem, hsplit⟩ := ih
    rw [List.cons_append, List.splitOn_cons_eq_if_modifyHead, hsplit]
    split
    · exact ⟨[] :: front, stem, rfl⟩
    · cases front with
      | nil => exact ⟨[], c :: stem, rfl⟩
      | cons first others => exact ⟨(c :: first) :: others, stem, rfl⟩

theorem exists_getLast?_names {tail : String} (hne : tail ≠ "") (h : '/' ∉ tail.toList)
    (text : String) :
    ∃ stem, (ofString (text ++ tail)).names.getLast? = some (stem ++ tail) := by
  obtain ⟨front, stem, hsplit⟩ := exists_splitOn_append h text.toList
  refine ⟨.ofList stem, ?_⟩
  have hlast : String.ofList (stem ++ tail.toList) = .ofList stem ++ tail := by simp
  simp [ofString, hsplit, hlast, hne, List.filter_append]

end PathName

namespace Folder

variable {f g : Folder} {names other : List String} {e : Entry} {content : ByteArray}

-- ---------------------------------------------------------------------------
-- Entries
-- ---------------------------------------------------------------------------

theorem lookup_filter_ne (entries : List (List String × Entry)) (h : other ≠ names) :
    (entries.filter (·.1 ≠ names)).lookup other = entries.lookup other := by
  induction entries with
  | nil => rfl
  | cons entry rest ih =>
    by_cases hentry : entry.1 = names
    · have hne : (other == entry.1) = false := by simp [hentry, h]
      rw [List.filter_cons_of_neg (by simp [hentry]), ih, List.lookup_cons, hne]
    · rw [List.filter_cons_of_pos (by simp [hentry]), List.lookup_cons, List.lookup_cons, ih]

theorem lookup_filter_self (entries : List (List String × Entry)) (names : List String) :
    (entries.filter (·.1 ≠ names)).lookup names = none := by
  rw [List.lookup_eq_none_iff]
  intro entry hentry
  have hne : entry.1 ≠ names := of_decide_eq_true (List.mem_filter.mp hentry).2
  simpa using hne.symm

theorem entry?_put (f : Folder) (names : List String) (e : Entry) :
    entry? (f.put names e) names = some e := by
  rw [put, entry?, List.lookup_append, lookup_filter_self]
  simp

theorem entry?_put_of_ne (f : Folder) (e : Entry) (h : other ≠ names) :
    entry? (f.put names e) other = f.entry? other := by
  have hne : (other == names) = false := beq_false_of_ne h
  rw [put, entry?, List.lookup_append, lookup_filter_ne _ h]
  simp [List.lookup_cons, hne, entry?]

-- ---------------------------------------------------------------------------
-- Walks
-- ---------------------------------------------------------------------------

section Walks

variable {place next : Place} {name : String}

theorem walk_append_singleton (f : Folder) (place : Place) (names : List String) (name : String) :
    f.walk place (names ++ [name]) = f.walk place names >>= fun last =>
      if f.isFolderAt last then f.child last name else .error .notFolder := by
  induction names generalizing place with
  | nil =>
    simp only [List.nil_append, walk, ok_bind]
    split
    · cases f.child place name <;> rfl
    · rfl
  | cons first rest ih =>
    simp only [List.cons_append, walk]
    split
    · cases f.child place first with
      | error fault => rfl
      | ok next => exact ih next
    · rfl

theorem isFolderAt_iff : f.isFolderAt place = true ↔ f.at? place = some .folder := by
  unfold isFolderAt
  split
  · next hfolder => simp [hfolder]
  · next hother => simpa using hother

theorem isFolderAt_put (hfree : f.entry? other ≠ some .folder) (h : f.isFolderAt place = true) :
    (f.put other (.file content)).isFolderAt place = true := by
  match place with
  | .outside => rfl
  | .inside [] => rfl
  | .inside (first :: rest) =>
    have hfolder : f.entry? (first :: rest) = some .folder := isFolderAt_iff.mp h
    have hne : first :: rest ≠ other := by
      rintro rfl
      exact hfree hfolder
    exact isFolderAt_iff.mpr ((entry?_put_of_ne f _ hne).trans hfolder)

theorem isSome_entry?_put (e : Entry) (h : (f.entry? names).isSome = true) :
    (Folder.entry? (f.put other e) names).isSome = true := by
  by_cases hne : names = other
  · rw [hne, entry?_put]
    rfl
  · rwa [entry?_put_of_ne f e hne]

theorem child_put (e : Entry) (h : f.child place name = .ok next) :
    (f.put other e).child place name = .ok next := by
  unfold child at h ⊢
  split at h
  · cases h
  · next hshort =>
    rw [if_neg hshort]
    split at h
    · exact h
    · exact h
    · exact h
    · cases h
    · split at h
      · next hsome => simp [isSome_entry?_put e hsome, h]
      · cases h

theorem walk_put (hfree : f.entry? other ≠ some .folder) (h : f.walk place names = .ok next) :
    (f.put other (.file content)).walk place names = .ok next := by
  induction names generalizing place with
  | nil => exact h
  | cons name rest ih =>
    unfold walk at h ⊢
    split at h
    · next hfolder =>
      obtain ⟨below, hchild, hrest⟩ := bind_eq_ok.mp h
      rw [if_pos (isFolderAt_put hfree hfolder), child_put _ hchild]
      exact ih hrest
    · cases h

end Walks

-- ---------------------------------------------------------------------------
-- Saving and reading
-- ---------------------------------------------------------------------------

/-- Whether a path leads to a name in a place, and no folder has this name there. -/
structure Addresses (f : Folder) (path : String) (place : Place) (name : String) : Prop where
  parsed : ∃ p, PathName.parse path = .ok p ∧ p.asFolder = false ∧ p.names.getLast? = some name ∧
    f.walk (start p) p.names.dropLast = .ok place
  folder : f.isFolderAt place = true
  plain : isPlainName name = true
  short : name.utf8ByteSize ≤ PathName.longestName
  free : ∀ above, place = .inside above → f.entry? (above ++ [name]) ≠ some .folder

def keep (f : Folder) (place : Place) (name : String) (content : ByteArray) : Folder :=
  match place with
  | .inside above => f.put (above ++ [name]) (.file content)
  | .outside => f

theorem entry?_keep_of_ne (f : Folder) (place : Place) {name : String}
    (h : names.getLast? ≠ some name) (content : ByteArray) :
    entry? (f.keep place name content) names = f.entry? names := by
  cases place with
  | outside => rfl
  | inside above =>
    refine entry?_put_of_ne f _ ?_
    rintro rfl
    exact h List.getLast?_concat

theorem child_of_plain {name : String} (hplain : isPlainName name = true)
    (hshort : name.utf8ByteSize ≤ PathName.longestName) (place : Place) :
    f.child place name = match place with
      | .outside => .error .notFound
      | .inside above =>
        if (f.entry? (above ++ [name])).isSome then .ok (.inside (above ++ [name]))
        else .error .notFound := by
  simp only [isPlainName, ne_eq, decide_not, Bool.and_eq_true, Bool.not_eq_true',
    decide_eq_false_iff_not] at hplain
  unfold child
  rw [if_neg (Nat.not_lt.mpr hshort)]
  split
  · exact absurd rfl hplain.1
  · exact absurd rfl hplain.2
  · exact absurd rfl hplain.2
  · rfl
  · rfl

namespace Addresses

variable {path : String} {place : Place} {name : String}

theorem save (h : f.Addresses path place name) (content : ByteArray) :
    f.save path content = .ok (f.keep place name content) := by
  obtain ⟨⟨p, hparse, hfile, hlast, hwalk⟩, hfolder, hplain, hshort, hfree⟩ := h
  simp only [Folder.save, hparse, ok_bind, holder, hwalk, hfolder, if_true, hlast, hplain, hfile,
    Bool.not_true, Bool.or_self, Bool.false_eq_true, if_false, if_neg (Nat.not_lt.mpr hshort)]
  cases place with
  | outside => rfl
  | inside above =>
    have hnotFolder := hfree above rfl
    dsimp only
    split
    · next hentry => exact absurd hentry hnotFolder
    · rfl

theorem read {above : List String} (h : f.Addresses path (.inside above) name)
    (hentry : f.entry? (above ++ [name]) = some (.file content)) :
    f.read path = .ok content := by
  obtain ⟨⟨p, hparse, hfile, hlast, hwalk⟩, hfolder, hplain, hshort, -⟩ := h
  obtain ⟨ways, hnames⟩ := List.getLast?_eq_some_iff.mp hlast
  rw [hnames, List.dropLast_concat] at hwalk
  have hplace : f.walk (start p) p.names = .ok (.inside (above ++ [name])) := by
    rw [hnames, walk_append_singleton, hwalk, ok_bind, if_pos hfolder,
      child_of_plain hplain hshort]
    simp [hentry]
  have hat : f.at? (.inside (above ++ [name])) = some (.file content) := by
    rw [← hentry]
    cases above <;> rfl
  simp only [Folder.read, hparse, ok_bind, hplace, hat, hfile, Bool.false_eq_true, if_false]

theorem not_read_outside (h : f.Addresses path .outside name) : f.read path = .error .notFound := by
  obtain ⟨⟨p, hparse, -, hlast, hwalk⟩, hfolder, hplain, hshort, -⟩ := h
  obtain ⟨ways, hnames⟩ := List.getLast?_eq_some_iff.mp hlast
  rw [hnames, List.dropLast_concat] at hwalk
  simp only [Folder.read, hparse, hnames, walk_append_singleton, hwalk, hfolder,
    child_of_plain hplain hshort, ok_bind, if_true]
  rfl

theorem put (h : f.Addresses path place name) (hfree : f.entry? other ≠ some .folder)
    (content : ByteArray) : (f.put other (.file content)).Addresses path place name := by
  obtain ⟨⟨p, hparse, hfile, hlast, hwalk⟩, hfolder, hplain, hshort, hname⟩ := h
  refine ⟨⟨p, hparse, hfile, hlast, walk_put hfree hwalk⟩, isFolderAt_put hfree hfolder, hplain,
    hshort, fun above habove => ?_⟩
  by_cases hsame : above ++ [name] = other
  · rw [hsame, entry?_put]
    simp
  · rw [entry?_put_of_ne f _ hsame]
    exact hname above habove

/-- A file that is saved leaves the ways to all files as they are. -/
theorem keep {path' : String} {place' : Place} {name' : String}
    (h : f.Addresses path place name) (hsaved : f.Addresses path' place' name')
    (content : ByteArray) : (f.keep place' name' content).Addresses path place name := by
  cases place' with
  | outside => exact h
  | inside above => exact h.put (hsaved.free above rfl) content

theorem unique {place' : Place} {name' : String} (h : f.Addresses path place name)
    (h' : f.Addresses path place' name') : place = place' ∧ name = name' := by
  obtain ⟨p, hparse, -, hlast, hwalk⟩ := h.parsed
  obtain ⟨p', hparse', -, hlast', hwalk'⟩ := h'.parsed
  cases hparse.symm.trans hparse'
  exact ⟨Except.ok.inj (hwalk.symm.trans hwalk'), Option.some.inj (hlast.symm.trans hlast')⟩

theorem getLast?_names (h : f.Addresses path place name) :
    (PathName.ofString path).names.getLast? = some name := by
  obtain ⟨p, hparse, -, hlast, -⟩ := h.parsed
  unfold PathName.parse at hparse
  split at hparse
  · cases hparse
  · split at hparse
    · cases hparse
    · split at hparse <;> cases hparse
      exact hlast

end Addresses

theorem save_ok {path : String} (h : f.save path content = .ok g) :
    ∃ place name, f.Addresses path place name ∧ g = f.keep place name content := by
  obtain ⟨p, hparse, h⟩ := bind_eq_ok.mp h
  obtain ⟨⟨place, last?⟩, hholder, h⟩ := bind_eq_ok.mp h
  obtain ⟨_, hwalk, hholder⟩ := bind_eq_ok.mp hholder
  split at hholder
  · next hfolder =>
    cases hholder
    split at h
    · cases h
    · next place name hpair =>
      obtain ⟨rfl, hlast⟩ := Prod.mk.inj hpair
      split at h
      · cases h
      · next hfile =>
        simp only [Bool.or_eq_true, Bool.not_eq_true', not_or, Bool.not_eq_false,
          Bool.not_eq_true] at hfile
        split at h
        · cases h
        · next hshort =>
          have hway : ∃ p, PathName.parse path = .ok p ∧ p.asFolder = false ∧
              p.names.getLast? = some name ∧ f.walk (start p) p.names.dropLast = .ok _ :=
            ⟨p, hparse, hfile.2, hlast, hwalk⟩
          split at h
          · cases h
            exact ⟨_, name, ⟨hway, hfolder, hfile.1, Nat.le_of_not_lt hshort, by simp⟩, rfl⟩
          · next above =>
            split at h
            · cases h
            · next hfree =>
              cases h
              refine ⟨_, name, ⟨hway, hfolder, hfile.1, Nat.le_of_not_lt hshort, ?_⟩, rfl⟩
              intro _ hsame
              cases hsame
              exact hfree
  · cases hholder

def saveAll (f : Folder) (files : List (String × ByteArray)) : Except FileFault Folder :=
  files.foldlM (fun f file => f.save file.1 file.2) f

/-- Files that can be saved one by one can be saved one after the other, and each is then read as
it was saved if their last names differ. -/
theorem exists_saveAll {files : List (String × ByteArray)}
    (h : ∀ file ∈ files, ∃ place name, f.Addresses file.1 place name)
    (hnames : files.Pairwise fun file file' => (PathName.ofString file.1).names.getLast? ≠
      (PathName.ofString file'.1).names.getLast?) :
    ∃ g, f.saveAll files = .ok g ∧
      (∀ path place name, f.Addresses path place name → g.Addresses path place name) ∧
      (∀ names, (∀ file ∈ files, (PathName.ofString file.1).names.getLast? ≠ names.getLast?) →
        g.entry? names = f.entry? names) ∧
      ∀ file ∈ files, ∀ above name, f.Addresses file.1 (.inside above) name →
        g.read file.1 = .ok file.2 := by
  induction files generalizing f with
  | nil => exact ⟨f, rfl, fun _ _ _ => id, fun _ _ => rfl, by simp⟩
  | cons file rest ih =>
    rw [List.forall_mem_cons] at h
    rw [List.pairwise_cons] at hnames
    obtain ⟨⟨place, name, hfile⟩, hrest⟩ := h
    obtain ⟨g, hsave, hways, hentries, hread⟩ := ih (f := f.keep place name file.2)
      (fun other hother => (hrest other hother).imp fun place => Exists.imp fun name haddr =>
        haddr.keep hfile file.2) hnames.2
    refine ⟨g, ?_, fun path place name haddr => hways _ _ _ (haddr.keep hfile _), ?_, ?_⟩
    · rw [saveAll, List.foldlM_cons, hfile.save, ok_bind]
      exact hsave
    · intro names hother
      rw [List.forall_mem_cons] at hother
      rw [hentries names hother.2]
      exact entry?_keep_of_ne f place (hfile.getLast?_names ▸ hother.1.symm) _
    · rw [List.forall_mem_cons]
      refine ⟨fun above _ haddr => ?_, fun other hother above _ haddr =>
        hread other hother _ _ (haddr.keep hfile _)⟩
      obtain ⟨rfl, rfl⟩ := hfile.unique haddr
      have hlast : (above ++ [name]).getLast? = (PathName.ofString file.1).names.getLast? := by
        rw [hfile.getLast?_names, List.getLast?_concat]
      refine (hways _ _ _ (haddr.keep hfile _)).read ?_
      rw [hentries, keep, entry?_put]
      exact fun other hother => hlast ▸ (hnames.1 other hother).symm

end Folder

end BlockTree
