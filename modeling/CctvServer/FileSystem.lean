import CctvServer.Bytes
import Mathlib.Logic.Function.Basic

namespace CctvServer

abbrev Name := Bytes

/-- An absolute path, innermost name first. -/
abbrev Path := List Name

/-- What a directory entry is. A directory reports some offset for its end. -/
inductive Entry
  | dir (size : ℕ)
  | file (ino : ℕ)
  deriving DecidableEq, Repr

def Entry.IsDir (e : Option Entry) : Prop := ∃ s, e = some (.dir s)

instance (e : Option Entry) : Decidable (Entry.IsDir e) :=
  match e with
  | some (.dir s) => .isTrue ⟨s, rfl⟩
  | some (.file _) => .isFalse fun ⟨_, h⟩ => by cases h
  | none => .isFalse fun ⟨_, h⟩ => by cases h

/-- The longest name and the longest path that the system accepts. -/
structure Limits where
  nameMax : ℕ
  pathMax : ℕ
  /-- A name in a directory is never too long a path. -/
  two_names : 2 * nameMax + 1 ≤ pathMax

/-- A tree of directories and files. Files are reached through inode numbers,
so that an open file outlives its name. -/
structure FileSystem where
  entry : Path → Option Entry
  content : ℕ → Bytes
  /-- The first inode number never used. -/
  fresh : ℕ
  cwd : Path
  limits : Limits
  root_dir : Entry.IsDir (entry [])
  cwd_dir : Entry.IsDir (entry cwd)
  parent_dir : ∀ n p, entry (n :: p) ≠ none → Entry.IsDir (entry p)
  ino_lt : ∀ p i, entry p = some (.file i) → i < fresh
  ino_inj : ∀ p q i, entry p = some (.file i) → entry q = some (.file i) → p = q

namespace FileSystem

def components (path : Bytes) : List Name := path.splitOn 47

def next (p : Path) (c : Name) : Path :=
  if c = [] ∨ c = [46] then p else if c = [46, 46] then p.tail else c :: p

/-- Every position but the last has to be a directory. -/
def walk (fs : FileSystem) : Path → List Name → Option Path
  | p, [] => some p
  | p, c :: cs => if Entry.IsDir (fs.entry p) then fs.walk (next p c) cs else none

/-- Where a path string leads, the last name possibly missing. -/
def resolve (fs : FileSystem) (path : Bytes) : Option Path :=
  match cstr path with
  | [] => none
  | 47 :: rest => fs.walk [] (components rest)
  | p => fs.walk fs.cwd (components p)

def TooLong (limits : Limits) (path : Bytes) : Prop :=
  limits.pathMax < (cstr path).length ∨ ∃ c ∈ components (cstr path), limits.nameMax < c.length

instance (limits : Limits) (path : Bytes) : Decidable (TooLong limits path) :=
  inferInstanceAs (Decidable (_ ∨ _))

def tooLong (fs : FileSystem) (path : Bytes) : Bool := decide (TooLong fs.limits path)

theorem tooLong_iff {fs : FileSystem} {path : Bytes} :
    fs.tooLong path = true ↔ TooLong fs.limits path := decide_eq_true_iff

def lookup (fs : FileSystem) (path : Bytes) : Option Entry := (fs.resolve path).bind fs.entry

def setContent (fs : FileSystem) (i : ℕ) (b : Bytes) : FileSystem :=
  { fs with content := Function.update fs.content i b }

/-- `b` written over `c` from offset `off` on; a gap is filled with zeros. -/
def splice (c : Bytes) (off : ℕ) (b : Bytes) : Bytes :=
  c.take off ++ List.replicate (off - c.length) 0 ++ b ++ c.drop (off + b.length)

def writeAt (fs : FileSystem) (i off : ℕ) (b : Bytes) : FileSystem :=
  fs.setContent i (splice (fs.content i) off b)

def addEntry (fs : FileSystem) (n : Name) (d : Path) (e : Entry)
    (hd : Entry.IsDir (fs.entry d)) (hn : fs.entry (n :: d) = none)
    (he : ∀ i, e = .file i → i = fs.fresh) : FileSystem where
  entry := Function.update fs.entry (n :: d) (some e)
  content := Function.update fs.content fs.fresh []
  fresh := fs.fresh + 1
  cwd := fs.cwd
  limits := fs.limits
  root_dir := by simpa using fs.root_dir
  cwd_dir := by
    obtain ⟨s, hs⟩ := fs.cwd_dir
    have hne : fs.cwd ≠ n :: d := by
      intro h
      rw [h, hn] at hs
      cases hs
    exact ⟨s, by simpa [hne] using hs⟩
  parent_dir := by
    intro m p h
    have hdir : Entry.IsDir (fs.entry p) := by
      by_cases hmp : m :: p = n :: d
      · rw [List.cons.injEq] at hmp
        exact hmp.2 ▸ hd
      · exact fs.parent_dir m p (by simpa [hmp] using h)
    obtain ⟨s, hs⟩ := hdir
    have hne : p ≠ n :: d := by
      rintro rfl
      rw [hn] at hs
      cases hs
    exact ⟨s, by simpa [hne] using hs⟩
  ino_lt := by
    intro p i h
    by_cases hp : p = n :: d
    · subst hp
      have := he i (by simpa using h)
      omega
    · have := fs.ino_lt p i (by simpa [hp] using h)
      omega
  ino_inj := by
    intro p q i h₁ h₂
    by_cases hp : p = n :: d <;> by_cases hq : q = n :: d
    · rw [hp, hq]
    · subst hp
      have h₃ := he i (by simpa using h₁)
      have h₄ := fs.ino_lt q i (by simpa [hq] using h₂)
      omega
    · subst hq
      have h₃ := he i (by simpa using h₂)
      have h₄ := fs.ino_lt p i (by simpa [hp] using h₁)
      omega
    · exact fs.ino_inj p q i (by simpa [hp] using h₁) (by simpa [hq] using h₂)

def createFile (fs : FileSystem) (n : Name) (d : Path) (hd : Entry.IsDir (fs.entry d))
    (hn : fs.entry (n :: d) = none) : FileSystem :=
  fs.addEntry n d (.file fs.fresh) hd hn (by simp)

def createDir (fs : FileSystem) (n : Name) (d : Path) (hd : Entry.IsDir (fs.entry d))
    (hn : fs.entry (n :: d) = none) : FileSystem :=
  fs.addEntry n d (.dir 0) hd hn (by simp)

/-- A file loses its name; its content stays for those who have it open. -/
def unlink (fs : FileSystem) (p : Path) (i : ℕ) (h : fs.entry p = some (.file i)) : FileSystem where
  entry := Function.update fs.entry p none
  content := fs.content
  fresh := fs.fresh
  cwd := fs.cwd
  limits := fs.limits
  root_dir := by
    obtain ⟨s, hs⟩ := fs.root_dir
    have hne : ([] : Path) ≠ p := by rintro rfl; simp [h] at hs
    exact ⟨s, by simpa [hne] using hs⟩
  cwd_dir := by
    obtain ⟨s, hs⟩ := fs.cwd_dir
    have hne : fs.cwd ≠ p := by intro hp; rw [hp, h] at hs; cases hs
    exact ⟨s, by simpa [hne] using hs⟩
  parent_dir := by
    intro m q hm
    have hmq : m :: q ≠ p := by rintro rfl; simp at hm
    obtain ⟨s, hs⟩ := fs.parent_dir m q (by simpa [hmq] using hm)
    have hne : q ≠ p := by rintro rfl; simp [h] at hs
    exact ⟨s, by simpa [hne] using hs⟩
  ino_lt := by
    intro q j hq
    have hne : q ≠ p := by rintro rfl; simp at hq
    exact fs.ino_lt q j (by simpa [hne] using hq)
  ino_inj := by
    intro q q' j h₁ h₂
    have hne : q ≠ p := by rintro rfl; simp at h₁
    have hne' : q' ≠ p := by rintro rfl; simp at h₂
    exact fs.ino_inj q q' j (by simpa [hne] using h₁) (by simpa [hne'] using h₂)

/-- Opens a path for writing and empties the file, which is created when
it is missing. -/
def openWrite (fs : FileSystem) (path : Bytes) : Option (ℕ × FileSystem) :=
  if fs.tooLong path then none
  else match fs.resolve path with
    | none => none
    | some p =>
        match h : fs.entry p with
        | some (.file i) => some (i, fs.setContent i [])
        | some (.dir _) => none
        | none =>
            match p, h with
            | [], _ => none
            | n :: d, h =>
                if hd : Entry.IsDir (fs.entry d) then some (fs.fresh, fs.createFile n d hd h)
                else none

/-- `create_directory`; `none` is an error, an existing directory is none. -/
def mkdir (fs : FileSystem) (path : Bytes) : Option FileSystem :=
  match fs.resolve path with
  | none => none
  | some p =>
      match h : fs.entry p with
      | some (.dir _) => some fs
      | some (.file _) => none
      | none =>
          match p, h with
          | [], _ => none
          | n :: d, h =>
              if hd : Entry.IsDir (fs.entry d) then some (fs.createDir n d hd h) else none

/-- `remove`; `none` is an error, a missing file is none. -/
def remove (fs : FileSystem) (path : Bytes) : Option FileSystem :=
  if fs.tooLong path then none
  else match fs.resolve path with
    | none => some fs
    | some p =>
        match h : fs.entry p with
        | some (.file i) => some (fs.unlink p i h)
        | some (.dir _) => none
        | none => some fs

@[simp] theorem setContent_entry (fs : FileSystem) (i : ℕ) (b : Bytes) :
    (fs.setContent i b).entry = fs.entry := rfl

@[simp] theorem setContent_content (fs : FileSystem) (i : ℕ) (b : Bytes) :
    (fs.setContent i b).content = Function.update fs.content i b := rfl

@[simp] theorem setContent_cwd (fs : FileSystem) (i : ℕ) (b : Bytes) :
    (fs.setContent i b).cwd = fs.cwd := rfl

@[simp] theorem setContent_limits (fs : FileSystem) (i : ℕ) (b : Bytes) :
    (fs.setContent i b).limits = fs.limits := rfl

theorem splice_length (c b : Bytes) : splice c c.length b = c ++ b := by
  have : c.drop (c.length + b.length) = [] := List.drop_eq_nil_of_le (by omega)
  simp [splice, this]

theorem walk_congr {fs fs' : FileSystem}
    (h : ∀ p, Entry.IsDir (fs.entry p) ↔ Entry.IsDir (fs'.entry p))
    (p : Path) (cs : List Name) : fs.walk p cs = fs'.walk p cs := by
  induction cs generalizing p with
  | nil => rfl
  | cons c cs ih => simp [walk, h, ih]

/-- Resolution depends only on which paths are directories. -/
theorem resolve_congr {fs fs' : FileSystem} (hc : fs.cwd = fs'.cwd)
    (h : ∀ p, Entry.IsDir (fs.entry p) ↔ Entry.IsDir (fs'.entry p)) (path : Bytes) :
    fs.resolve path = fs'.resolve path := by
  simp only [resolve, hc]
  split
  · rfl
  · exact walk_congr h _ _
  · exact walk_congr h _ _

theorem components_of_notMem {b : Bytes} (h : (47 : UInt8) ∉ b) : components b = [b] := by
  refine List.splitOnP_eq_singleton fun c hc => ?_
  rw [beq_eq_false_iff_ne]
  exact fun h47 => h (h47 ▸ hc)

theorem components_append {a : Bytes} (b : Bytes) (h : (47 : UInt8) ∉ a) :
    components (a ++ 47 :: b) = a :: components b := by
  refine List.splitOnP_append_cons_of_forall_mem (fun c hc => ?_) 47 (by simp) b
  rw [beq_eq_false_iff_ne]
  exact fun h47 => h (h47 ▸ hc)

theorem walk_mono {fs fs' : FileSystem}
    (h : ∀ p, Entry.IsDir (fs.entry p) → Entry.IsDir (fs'.entry p)) {p q : Path} {cs : List Name}
    (hw : fs.walk p cs = some q) : fs'.walk p cs = some q := by
  induction cs generalizing p with
  | nil => exact hw
  | cons c cs ih =>
    simp only [walk] at hw ⊢
    split at hw
    · rename_i hd
      rw [if_pos (h p hd)]
      exact ih hw
    · cases hw

theorem resolve_mono {fs fs' : FileSystem} {path : Bytes} {q : Path}
    (hr : fs.resolve path = some q)
    (h : ∀ p, Entry.IsDir (fs.entry p) → Entry.IsDir (fs'.entry p)) (hc : fs'.cwd = fs.cwd) :
    fs'.resolve path = some q := by
  simp only [resolve, hc] at hr ⊢
  split at hr
  · cases hr
  · exact walk_mono h hr
  · exact walk_mono h hr

theorem lookup_eq_some {fs : FileSystem} {path : Bytes} {e : Entry} (h : fs.lookup path = some e) :
    ∃ q, fs.resolve path = some q ∧ fs.entry q = some e := Option.bind_eq_some_iff.mp h

/-- A path ends at its first NUL. -/
theorem lookup_congr {path path' : Bytes} (h : cstr path = cstr path') (fs : FileSystem) :
    fs.lookup path = fs.lookup path' := by
  have hr : fs.resolve path = fs.resolve path' := by
    unfold resolve
    rw [h]
  rw [lookup, hr]
  rfl

theorem lookup_ino_lt {fs : FileSystem} {path : Bytes} {i : ℕ}
    (h : fs.lookup path = some (.file i)) : i < fs.fresh := by
  obtain ⟨q, -, hq⟩ := lookup_eq_some h
  exact fs.ino_lt q i hq

section AddEntry

variable {fs : FileSystem} {n : Name} {d : Path} {e : Entry} (hd : Entry.IsDir (fs.entry d))
  (hn : fs.entry (n :: d) = none) (he : ∀ i, e = .file i → i = fs.fresh)

theorem entry_addEntry_self : (fs.addEntry n d e hd hn he).entry (n :: d) = some e :=
  Function.update_self _ _ _

theorem entry_addEntry {p : Path} (hp : fs.entry p ≠ none) :
    (fs.addEntry n d e hd hn he).entry p = fs.entry p := by
  have hne : p ≠ n :: d := by
    rintro rfl
    exact hp hn
  exact Function.update_of_ne hne _ _

theorem resolve_addEntry {path : Bytes} {q : Path} (h : fs.resolve path = some q) :
    (fs.addEntry n d e hd hn he).resolve path = some q := by
  refine resolve_mono h ?_ rfl
  rintro p ⟨m, hm⟩
  exact ⟨m, (entry_addEntry hd hn he (by rw [hm]; simp)).trans hm⟩

theorem lookup_addEntry {path : Bytes} {e' : Entry} (h : fs.lookup path = some e') :
    (fs.addEntry n d e hd hn he).lookup path = some e' := by
  obtain ⟨q, hr, hq⟩ := lookup_eq_some h
  rw [lookup, resolve_addEntry hd hn he hr]
  exact (entry_addEntry hd hn he (by rw [hq]; simp)).trans hq

theorem content_addEntry {j : ℕ} (hj : j < fs.fresh) :
    (fs.addEntry n d e hd hn he).content j = fs.content j :=
  Function.update_of_ne hj.ne _ _

end AddEntry

/-- A removed file takes no other with it. -/
theorem lookup_unlink {fs : FileSystem} {p : Path} {i j : ℕ} (h : fs.entry p = some (.file i))
    {path : Bytes} (hl : fs.lookup path = some (.file j)) (hij : j ≠ i) :
    (fs.unlink p i h).lookup path = some (.file j) := by
  obtain ⟨q, hr, hq⟩ := lookup_eq_some hl
  have hdir : ∀ q, Entry.IsDir (fs.entry q) → Entry.IsDir ((fs.unlink p i h).entry q) := by
    rintro q ⟨m, hm⟩
    have hne : q ≠ p := by
      rintro rfl
      rw [h] at hm
      cases hm
    exact ⟨m, (Function.update_of_ne hne _ _).trans hm⟩
  have hne : q ≠ p := by
    rintro rfl
    rw [h] at hq
    cases hq
    exact hij rfl
  have hr' : (fs.unlink p i h).resolve path = some q := resolve_mono hr hdir rfl
  rw [lookup, hr']
  exact (Function.update_of_ne hne _ _).trans hq

theorem lookup_setContent (fs : FileSystem) (i : ℕ) (b path : Bytes) :
    (fs.setContent i b).lookup path = fs.lookup path := by
  have hr : (fs.setContent i b).resolve path = fs.resolve path :=
    resolve_congr (setContent_cwd fs i b) (fun _ => Iff.rfl) path
  rw [lookup, hr]
  rfl

/-- A change that keeps all files under their paths and their contents. -/
structure Extends (fs fs' : FileSystem) : Prop where
  lookup : ∀ path e, fs.lookup path = some e → fs'.lookup path = some e
  content : ∀ j < fs.fresh, fs'.content j = fs.content j

theorem Extends.refl (fs : FileSystem) : Extends fs fs := ⟨fun _ _ h => h, fun _ _ => rfl⟩

theorem mkdir_extends {fs fs' : FileSystem} {path : Bytes} (h : fs.mkdir path = some fs') :
    Extends fs fs' := by
  unfold mkdir at h
  split at h
  · cases h
  · split at h
    · cases h
      exact .refl fs
    · cases h
    · split at h
      · cases h
      · split at h
        · cases h
          exact ⟨fun _ _ => lookup_addEntry _ _ _, fun _ => content_addEntry _ _ _⟩
        · cases h

theorem openWrite_new {fs fs' : FileSystem} {path : Bytes} {i : ℕ} (hl : fs.lookup path = none)
    (h : fs.openWrite path = some (i, fs')) :
    i = fs.fresh ∧ fs'.lookup path = some (.file i) ∧ fs'.content i = [] ∧ Extends fs fs' := by
  unfold openWrite at h
  split at h
  · cases h
  · split at h
    · cases h
    · rename_i p hp
      split at h
      · rename_i hq
        rw [lookup, hp] at hl
        exact absurd hl (by simp [hq])
      · cases h
      · rename_i hq
        split at h
        · cases h
        · split at h
          · rename_i n d hn hd
            cases h
            refine ⟨rfl, ?_, Function.update_self _ _ _, fun _ _ => lookup_addEntry _ _ _,
              fun _ => content_addEntry _ _ _⟩
            rw [lookup, createFile, resolve_addEntry _ _ _ hp]
            exact entry_addEntry_self _ _ _
          · cases h

theorem openWrite_file {fs : FileSystem} {path : Bytes} {i : ℕ}
    (hl : fs.lookup path = some (.file i)) (hs : fs.tooLong path = false) :
    fs.openWrite path = some (i, fs.setContent i []) := by
  obtain ⟨q, hr, hq⟩ := lookup_eq_some hl
  unfold openWrite
  rw [if_neg (by simp [hs]), hr]
  dsimp only
  split
  · rename_i j hj
    rw [hq] at hj
    cases hj
    rfl
  · rename_i hd
    rw [hq] at hd
    cases hd
  · rename_i hn
    rw [hq] at hn
    cases hn

/-- Opening a missing file creates it where its path leads. -/
theorem openWrite_created {fs fs' : FileSystem} {path : Bytes} {i : ℕ}
    (hl : fs.lookup path = none) (h : fs.openWrite path = some (i, fs')) :
    ∃ n d hd hn, fs.resolve path = some (n :: d) ∧ i = fs.fresh ∧
      fs' = fs.createFile n d hd hn := by
  unfold openWrite at h
  split at h
  · cases h
  · split at h
    · cases h
    · rename_i p hp
      split at h
      · rename_i hq
        rw [lookup, hp] at hl
        exact absurd hl (by simp [hq])
      · cases h
      · split at h
        · cases h
        · split at h
          · cases h
            exact ⟨_, _, _, _, hp, rfl, rfl⟩
          · cases h

theorem remove_existing {fs : FileSystem} {path : Bytes} {p : Path} {i : ℕ}
    (hr : fs.resolve path = some p) (he : fs.entry p = some (.file i))
    (hs : fs.tooLong path = false) : fs.remove path = some (fs.unlink p i he) := by
  unfold remove
  rw [if_neg (by simp [hs]), hr]
  dsimp only
  split
  · rename_i j hj
    rw [he] at hj
    cases hj
    rfl
  · rename_i hd
    rw [he] at hd
    cases hd
  · rename_i hn
    rw [he] at hn
    cases hn

theorem remove_file {fs fs' : FileSystem} {path : Bytes} {i : ℕ}
    (hl : fs.lookup path = some (.file i)) (h : fs.remove path = some fs') :
    fs'.content = fs.content ∧ ∀ path' j, fs.lookup path' = some (.file j) → j ≠ i →
      fs'.lookup path' = some (.file j) := by
  obtain ⟨q, hr, hq⟩ := lookup_eq_some hl
  unfold remove at h
  split at h
  · cases h
  · split at h
    · rename_i hn
      rw [hr] at hn
      cases hn
    · rename_i p hp
      rw [hr] at hp
      cases hp
      split at h
      · rename_i j hj
        rw [hq] at hj
        cases hj
        cases h
        exact ⟨rfl, fun _ _ => lookup_unlink _⟩
      · rename_i hd
        rw [hq] at hd
        cases hd
      · rename_i hn
        rw [hq] at hn
        cases hn

theorem lookup_of_unlink {fs : FileSystem} {p : Path} {i : ℕ} (h : fs.entry p = some (.file i))
    {path : Bytes} {e : Entry} (hl : (fs.unlink p i h).lookup path = some e) :
    fs.lookup path = some e := by
  have hentry : ∀ q e, (fs.unlink p i h).entry q = some e → fs.entry q = some e := by
    intro q e hq
    change Function.update fs.entry p none q = some e at hq
    have hne : q ≠ p := by
      rintro rfl
      rw [Function.update_self] at hq
      cases hq
    rwa [Function.update_of_ne hne] at hq
  obtain ⟨q, hr, hq⟩ := lookup_eq_some hl
  rw [lookup, resolve_mono hr (fun q ⟨m, hm⟩ => ⟨m, hentry q _ hm⟩) rfl]
  exact hentry q e hq

theorem lookup_of_remove {fs fs' : FileSystem} {path : Bytes} (h : fs.remove path = some fs')
    {path' : Bytes} {e : Entry} (hl : fs'.lookup path' = some e) : fs.lookup path' = some e := by
  unfold remove at h
  split at h
  · cases h
  · split at h
    · cases h
      exact hl
    · split at h
      · cases h
        exact lookup_of_unlink _ hl
      · cases h
      · cases h
        exact hl

theorem content_of_remove {fs fs' : FileSystem} {path : Bytes} (h : fs.remove path = some fs') :
    fs'.content = fs.content := by
  unfold remove at h
  split at h
  · cases h
  · split at h
    · cases h
      rfl
    · split at h
      · cases h
        rfl
      · cases h
      · cases h
        rfl

theorem mkdir_limits {fs fs' : FileSystem} {path : Bytes} (h : fs.mkdir path = some fs') :
    fs'.limits = fs.limits := by
  unfold mkdir at h
  repeat' split at h
  all_goals cases h <;> rfl

theorem openWrite_limits {fs fs' : FileSystem} {path : Bytes} {i : ℕ}
    (h : fs.openWrite path = some (i, fs')) : fs'.limits = fs.limits := by
  unfold openWrite at h
  repeat' split at h
  all_goals cases h <;> rfl

theorem tooLong_congr {fs fs' : FileSystem} (h : fs'.limits = fs.limits) (path : Bytes) :
    fs'.tooLong path = fs.tooLong path := by
  unfold tooLong
  rw [h]

end FileSystem

end CctvServer
