import Mathlib.Data.List.Basic
import Mathlib.Tactic

/-!
# The search for a file

`findFile` looks for a name in a directory and in all directories below it. The
entries of a directory are read one by one. A file of that name ends the search
of its directory, but not the search of the directories above it, so a later
match replaces an earlier one.

A directory is the list of the entries that are still to be read.
-/

set_option autoImplicit false

namespace BruhOS.BootFiles

/-- The code units of a name, without the zero at its end. -/
structure Name where
  units : List ℕ
  nonzero : 0 ∉ units
  deriving DecidableEq, Repr

inductive Listing where
  | done
  | file (name : Name) (rest : Listing)
  | directory (name : Name) (inner rest : Listing)
  deriving DecidableEq, Repr

/-- The loop runs up to the first difference or the end of the first string. -/
def strcmp16 : List ℕ → List ℕ → ℤ
  | [], [] => 0
  | [], b::_ => -b
  | a::_, [] => a
  | a::as, b::bs => if a = b then strcmp16 as bs else (a : ℤ)-b

def dot : Name := ⟨[46], by decide⟩

def dotDot : Name := ⟨[46, 46], by decide⟩

/-- The entries for the directory itself and the one above it. -/
def skipped (name : Name) : Bool :=
  strcmp16 name.units dot.units == 0 || strcmp16 name.units dotDot.units == 0

/-- What the search holds of the firmware: pools, directories that are open, files that were opened
for the caller, and the handle that is to be returned. -/
structure Files where
  pools : ℕ
  dirs : List (List Name)
  opened : List (List Name)
  out : Option (List Name)
  deriving DecidableEq, Repr

def Files.allocatePool (s : Files) : Files := { s with pools := s.pools+1 }

def Files.freePool (s : Files) : Files := { s with pools := s.pools-1 }

def Files.openDirectory (q : List Name) (s : Files) : Files := { s with dirs := q::s.dirs }

def Files.closeDirectory (q : List Name) (s : Files) : Files := { s with dirs := s.dirs.erase q }

def Files.openFile (q : List Name) (s : Files) : Files :=
  { s with opened := s.opened++[q], out := some q }

section Search

variable (opens : List Name → Bool) (filename : Name)

/-- `none` is a call that the firmware refuses, after which the loader exits. -/
def searchDirectoryRecursive : Listing → List Name → Files → Option Files
  | .done, _, s => some s
  | .file name rest, dir, s =>
    if skipped name then searchDirectoryRecursive rest dir s.allocatePool
    else if strcmp16 name.units filename.units = 0 then
      if opens (dir++[name]) then some (s.allocatePool.openFile (dir++[name])).freePool else none
    else searchDirectoryRecursive rest dir s.allocatePool.freePool
  | .directory name inner rest, dir, s =>
    if skipped name then searchDirectoryRecursive rest dir s.allocatePool
    else if opens (dir++[name]) then
      (searchDirectoryRecursive inner (dir++[name]) (s.allocatePool.openDirectory (dir++[name]))).bind
        fun s => searchDirectoryRecursive rest dir (s.closeDirectory (dir++[name])).freePool
    else none

/-- The search starts in the root of the volume. -/
def findFile (root : Listing) (pools : ℕ) : Option Files :=
  searchDirectoryRecursive opens filename root [] ⟨pools, [], [], none⟩

end Search

/-- A path leads to a regular file. -/
inductive Listing.At : Listing → List Name → Prop
  | file (name : Name) (rest : Listing) : At (.file name rest) [name]
  | afterFile (name : Name) {rest : Listing} {q : List Name} (h : At rest q) :
    At (.file name rest) q
  | inside (name : Name) {inner : Listing} (rest : Listing) {q : List Name} (h : At inner q) :
    At (.directory name inner rest) (name::q)
  | afterDirectory (name : Name) (inner : Listing) {rest : Listing} {q : List Name}
    (h : At rest q) : At (.directory name inner rest) q

def Listing.names : Listing → List Name
  | .done => []
  | .file name rest => name::rest.names
  | .directory name _ rest => name::rest.names

/-- No directory has two entries of one name. -/
def Listing.Distinct : Listing → Prop
  | .done => True
  | .file name rest => name ∉ rest.names ∧ rest.Distinct
  | .directory name inner rest => name ∉ rest.names ∧ inner.Distinct ∧ rest.Distinct

structure Volume where
  root : Listing
  distinct : root.Distinct

/-- The path does not go through an entry that the search skips. -/
def Visible (q : List Name) : Prop := ∀ name ∈ q, skipped name = false

section Names

theorem strcmp16_eq_zero (a b : List ℕ) (ha : 0 ∉ a) (hb : 0 ∉ b) :
    strcmp16 a b = 0 ↔ a = b := by
  induction a generalizing b with
  | nil =>
    cases b with
    | nil => simp [strcmp16]
    | cons y b =>
      simp only [List.mem_cons, not_or] at hb
      simp [strcmp16, Ne.symm hb.1]
  | cons x a ih =>
    cases b with
    | nil =>
      simp only [List.mem_cons, not_or] at ha
      simp [strcmp16, Ne.symm ha.1]
    | cons y b =>
      simp only [List.mem_cons, not_or] at ha hb
      rw [strcmp16]
      split_ifs with h
      · rw [ih b ha.2 hb.2]
        simp [h]
      · simp only [List.cons.injEq, h, false_and, iff_false]
        omega

theorem strcmp16_names (a b : Name) : strcmp16 a.units b.units = 0 ↔ a = b := by
  rw [strcmp16_eq_zero _ _ a.nonzero b.nonzero]
  cases a
  cases b
  simp

theorem skipped_iff (name : Name) : skipped name = true ↔ name = dot ∨ name = dotDot := by
  simp [skipped, strcmp16_names]

end Names

section Spec

variable (filename : Name)

/-- The files that a search opens, in order. -/
def found : Listing → List (List Name)
  | .done => []
  | .file name rest =>
    if skipped name then found rest
    else if name = filename then [[name]]
    else found rest
  | .directory name inner rest =>
    if skipped name then found rest
    else (found inner).map (name::·)++found rest

/-- The number of skipped entries that a search reads. -/
def dots : Listing → ℕ
  | .done => 0
  | .file name rest =>
    if skipped name then dots rest+1
    else if name = filename then 0
    else dots rest
  | .directory name inner rest =>
    if skipped name then dots rest+1
    else dots inner+dots rest

variable {filename} {opens : List Name → Bool} {t : Listing} {dir q : List Name} {s s' : Files}

/-- The search returns the last file it opens and closes every directory. -/
theorem search_spec (h : searchDirectoryRecursive opens filename t dir s = some s') :
    s' = ⟨s.pools+dots filename t, s.dirs, s.opened++(found filename t).map (dir++·),
      ((found filename t).getLast?.map (dir++·)).or s.out⟩ := by
  induction t generalizing dir s s' with
  | done => simpa [searchDirectoryRecursive, dots, found] using h.symm
  | file name rest ih =>
    simp only [searchDirectoryRecursive, strcmp16_names] at h
    simp only [dots, found]
    split_ifs at h ⊢ with hskip heq hopen
    · rw [ih h]
      simp [Files.allocatePool, Nat.add_assoc, Nat.add_comm]
    · simpa [Files.allocatePool, Files.openFile, Files.freePool] using h.symm
    · rw [ih h]
      simp [Files.allocatePool, Files.freePool]
  | directory name inner rest ihi ihr =>
    simp only [searchDirectoryRecursive] at h
    simp only [dots, found]
    split_ifs at h ⊢ with hskip hopen
    · rw [ihr h]
      simp [Files.allocatePool, Nat.add_assoc, Nat.add_comm]
    · obtain ⟨m, hm, h⟩ := Option.bind_eq_some_iff.mp h
      obtain rfl := ihi hm
      rw [ihr h]
      simp only [Files.allocatePool, Files.openDirectory, Files.closeDirectory, Files.freePool,
        Files.mk.injEq, List.erase_cons_head, List.map_append, List.getLast?_append, List.map_map,
        List.append_assoc, List.getLast?_map, true_and]
      refine ⟨by omega, by simp [Function.comp_def], ?_⟩
      cases (found filename rest).getLast? <;> cases (found filename inner).getLast? <;> simp

/-- A search that fails has met a path that the firmware does not open. -/
theorem search_refused (h : searchDirectoryRecursive opens filename t dir s = none) :
    ∃ q, opens q = false := by
  induction t generalizing dir s with
  | done => simp [searchDirectoryRecursive] at h
  | file name rest ih =>
    simp only [searchDirectoryRecursive] at h
    split_ifs at h with hskip heq hopen
    · exact ih h
    · exact ⟨_, by simpa using hopen⟩
    · exact ih h
  | directory name inner rest ihi ihr =>
    simp only [searchDirectoryRecursive] at h
    split_ifs at h with hskip hopen
    · exact ihr h
    · cases hm : searchDirectoryRecursive opens filename inner (dir++[name])
          (s.allocatePool.openDirectory (dir++[name])) with
      | none => exact ihi hm
      | some m =>
        rw [hm, Option.bind_some] at h
        exact ihr h
    · exact ⟨_, by simpa using hopen⟩

end Spec

section Matches

variable {filename : Name} {t : Listing} {q : List Name}

theorem Listing.At.ne_nil (hat : t.At q) : q ≠ [] := by
  induction hat with
  | file name rest => simp
  | afterFile name _ ih => exact ih
  | inside name rest _ _ => simp
  | afterDirectory name inner _ ih => exact ih

theorem Listing.At.mem_names {name : Name} (hat : t.At (name::q)) : name ∈ t.names := by
  generalize hp : name::q = p at hat
  induction hat with
  | file n rest => simp_all [Listing.names]
  | afterFile n _ ih => simp [Listing.names, ih hp]
  | inside n rest _ _ => simp_all [Listing.names]
  | afterDirectory n inner _ ih => simp [Listing.names, ih hp]

theorem at_file {name : Name} {rest : Listing} :
    (Listing.file name rest).At q ↔ q = [name] ∨ rest.At q := by
  constructor
  · intro h
    cases h with
    | file => exact .inl rfl
    | afterFile _ h => exact .inr h
  · rintro (rfl | h)
    · exact .file name rest
    · exact .afterFile name h

theorem at_directory {name : Name} {inner rest : Listing} :
    (Listing.directory name inner rest).At q ↔
      (∃ p, q = name::p ∧ inner.At p) ∨ rest.At q := by
  constructor
  · intro h
    cases h with
    | inside _ _ h => exact .inl ⟨_, rfl, h⟩
    | afterDirectory _ _ h => exact .inr h
  · rintro (⟨p, rfl, h⟩ | h)
    · exact .inside name rest h
    · exact .afterDirectory name inner h

theorem found_sound (h : q ∈ found filename t) :
    t.At q ∧ Visible q ∧ q.getLast? = some filename := by
  induction t generalizing q with
  | done => simp [found] at h
  | file name rest ih =>
    simp only [found] at h
    split_ifs at h with hskip heq
    · exact ⟨.afterFile name (ih h).1, (ih h).2⟩
    · obtain rfl := List.mem_singleton.mp h
      exact ⟨.file name rest, by simpa [Visible] using hskip, by simp [heq]⟩
    · exact ⟨.afterFile name (ih h).1, (ih h).2⟩
  | directory name inner rest ihi ihr =>
    simp only [found] at h
    split_ifs at h with hskip
    · exact ⟨.afterDirectory name inner (ihr h).1, (ihr h).2⟩
    · rcases List.mem_append.mp h with h | h
      · obtain ⟨p, hp, rfl⟩ := List.mem_map.mp h
        obtain ⟨hat, hvisible, hlast⟩ := ihi hp
        refine ⟨.inside name rest hat, ?_, by rw [List.getLast?_cons, hlast, Option.getD_some]⟩
        simpa [Visible] using ⟨by simpa using hskip, hvisible⟩
      · exact ⟨.afterDirectory name inner (ihr h).1, (ihr h).2⟩

theorem found_complete (hat : t.At q) (hvisible : Visible q) (hlast : q.getLast? = some filename) :
    found filename t ≠ [] := by
  induction hat with
  | file name rest =>
    have hskip : skipped name = false := hvisible name (by simp)
    obtain rfl : name = filename := by simpa using hlast
    simp [found, hskip]
  | afterFile name _ ih =>
    simp only [found]
    split_ifs
    · exact ih hvisible hlast
    · simp
    · exact ih hvisible hlast
  | @inside name inner rest q h ih =>
    have hskip : skipped name = false := hvisible name (by simp)
    have hrest : q.getLast? = some filename := by
      rwa [List.getLast?_cons_of_ne_nil h.ne_nil] at hlast
    have hvisible : Visible q := fun n hn => hvisible n (by simp [hn])
    simp [found, hskip, ih hvisible hrest]
  | afterDirectory name inner _ ih =>
    simp only [found]
    split_ifs
    · exact ih hvisible hlast
    · simp [ih hvisible hlast]

/-- A file in the directory itself is found last. -/
theorem found_direct (hat : t.At [filename]) (hskip : skipped filename = false) :
    (found filename t).getLast? = some [filename] := by
  induction t with
  | done => cases hat
  | file name rest ih =>
    simp only [found]
    cases hat with
    | file => simp [hskip]
    | afterFile _ hat =>
      split_ifs with h heq
      · exact ih hat
      · simp [heq]
      · exact ih hat
  | directory name inner rest ihi ihr =>
    simp only [found]
    cases hat with
    | inside _ _ hat => exact absurd rfl hat.ne_nil
    | afterDirectory _ _ hat =>
      split_ifs
      · exact ihr hat
      · simp [ihr hat]

/-- No directory on the way to the file that is found last has a file of that name. -/
theorem found_nearest (hdistinct : t.Distinct) (hq : (found filename t).getLast? = some q)
    {a b : List Name} (hsplit : q = a++b++[filename]) (hb : b ≠ []) : ¬ t.At (a++[filename]) := by
  intro hat
  have hvisible : Visible q := (found_sound (List.mem_of_getLast? hq)).2.1
  have hskip : skipped filename = false := hvisible _ (by simp [hsplit])
  induction t generalizing q a with
  | done => cases hat
  | file name rest ih =>
    simp only [found] at hq
    rw [at_file] at hat
    split_ifs at hq with h heq
    · rcases hat with hname | hat
      · obtain rfl : filename = name := by simpa using congrArg List.getLast? hname
        simp [hskip] at h
      · exact ih hdistinct.2 hq hsplit hat hvisible
    · have hlen := congrArg List.length hsplit
      have hpos := List.length_pos_of_ne_nil hb
      obtain rfl : [name] = q := by simpa using hq
      simp only [List.length_append, List.length_singleton] at hlen
      omega
    · rcases hat with hname | hat
      · exact heq (by simpa using (congrArg List.getLast? hname).symm)
      · exact ih hdistinct.2 hq hsplit hat hvisible
  | directory name inner rest ihi ihr =>
    obtain ⟨hname, hinner, hrest⟩ := hdistinct
    simp only [found] at hq
    rw [at_directory] at hat
    have hhead : ∀ p, a++[filename] = name::p → inner.At p →
        ∃ a', a = name::a' ∧ p = a'++[filename] := by
      intro p hp hat
      cases a with
      | nil =>
        obtain ⟨-, rfl⟩ := List.cons.inj hp
        exact absurd rfl hat.ne_nil
      | cons x a =>
        obtain ⟨rfl, htail⟩ := List.cons.inj hp
        exact ⟨a, rfl, htail.symm⟩
    split_ifs at hq with h
    · rcases hat with ⟨p, hp, hat⟩ | hat
      · obtain ⟨a', rfl, -⟩ := hhead p hp hat
        have hvis := hvisible name (by simp [hsplit])
        simp_all
      · exact ihr hrest hq hsplit hat hvisible
    · rw [List.getLast?_append] at hq
      cases hlast : (found filename rest).getLast? with
      | some p =>
        obtain rfl : p = q := by simpa [hlast] using hq
        have hrat := (found_sound (List.mem_of_getLast? hlast)).1
        rcases hat with ⟨p, hp, hat⟩ | hat
        · obtain ⟨a', rfl, -⟩ := hhead p hp hat
          rw [hsplit] at hrat
          exact hname hrat.mem_names
        · exact ihr hrest hlast hsplit hat hvisible
      | none =>
        rw [hlast, Option.none_or, List.getLast?_map] at hq
        obtain ⟨p, hp, rfl⟩ := Option.map_eq_some_iff.mp hq
        rcases hat with ⟨p', hp', hat⟩ | hat
        · obtain ⟨a', rfl, rfl⟩ := hhead p' hp' hat
          exact ihi hinner hp (List.cons.inj hsplit).2 hat (fun n hn => hvisible n (by simp [hn]))
        · cases a with
          | nil => simp [found_direct hat hskip] at hlast
          | cons x a =>
            obtain ⟨rfl, -⟩ := List.cons.inj hsplit
            exact hname hat.mem_names

theorem found_nodup (hdistinct : t.Distinct) : (found filename t).Nodup := by
  induction t with
  | done => simp [found]
  | file name rest ih =>
    simp only [found]
    split_ifs
    · exact ih hdistinct.2
    · exact List.nodup_singleton _
    · exact ih hdistinct.2
  | directory name inner rest ihi ihr =>
    obtain ⟨hname, hinner, hrest⟩ := hdistinct
    simp only [found]
    split_ifs
    · exact ihr hrest
    · refine ((ihi hinner).map (List.cons_injective)).append (ihr hrest) ?_
      intro q hi hr
      obtain ⟨p, -, rfl⟩ := List.mem_map.mp hi
      exact hname (found_sound hr).1.mem_names

end Matches

section Volumes

variable (opens : List Name → Bool) (filename : Name) (volume : Volume) (pools : ℕ)

variable {opens filename volume pools}

def kernelName : Name := ⟨[75], by decide⟩

/-- A volume with a kernel in a directory, behind the entries `.` and `..`. -/
def kernelVolume : Volume where
  root := .directory ⟨[66], by decide⟩
    (.directory dot .done (.directory dotDot .done (.file kernelName .done))) .done
  distinct := by simp [Listing.Distinct, Listing.names, dot, dotDot, kernelName]

/-- The handle of the kernel stays open, and so do the buffers of `.` and `..`. -/
def kernelSearch : Files :=
  ⟨2, [], [[⟨[66], by decide⟩, kernelName]], some [⟨[66], by decide⟩, kernelName]⟩

end Volumes

end BruhOS.BootFiles
