import CctvServer.Downloads
import CctvServer.Nodes
import CctvServer.TcpServer

namespace CctvServer

open ImageHandler TcpServer FileSystem

variable {P : Platform}

/-- The image directory and its direct children are the same. -/
structure AgreeOnImages (fs fs' : FileSystem) : Prop where
  cwd : fs'.cwd = fs.cwd
  limits : fs'.limits = fs.limits
  directory : fs'.look (images :: fs.cwd) = fs.look (images :: fs.cwd)
  children : ∀ n, fs'.look (n :: images :: fs.cwd) = fs.look (n :: images :: fs.cwd)

/-- The image directory, its ancestors and its direct children. -/
def Around (cwd p : Path) : Prop := p <:+ images :: cwd ∨ ∃ n, p = n :: images :: cwd

def InImages (cwd p : Path) : Prop := p = images :: cwd ∨ ∃ n, p = n :: images :: cwd

theorem isDir_iff_look {fs : FileSystem} {p : Path} :
    Entry.IsDir (fs.entry p) ↔ ∃ n, fs.look p = some (.dir n) := by
  unfold FileSystem.look
  cases h : fs.entry p with
  | none => simp [Entry.IsDir]
  | some e => cases e <;> simp [Entry.IsDir, FileSystem.node]

theorem isDir_of_suffix {fs : FileSystem} {p q : Path} (h : p <:+ q)
    (hq : Entry.IsDir (fs.entry q)) : Entry.IsDir (fs.entry p) := by
  obtain ⟨l, rfl⟩ := h
  induction l with
  | nil => exact hq
  | cons n l ih =>
    obtain ⟨m, hm⟩ := hq
    exact ih (fs.parent_dir n (l ++ p) (by rw [← List.cons_append, hm]; nofun))

theorem AgreeOnImages.look {fs fs' : FileSystem} (h : AgreeOnImages fs fs') {p : Path}
    (hp : InImages fs.cwd p) : fs'.look p = fs.look p := by
  rcases hp with rfl | ⟨n, rfl⟩
  · exact h.directory
  · exact h.children n

theorem AgreeOnImages.isDir {fs fs' : FileSystem} (h : AgreeOnImages fs fs') {p : Path}
    (hp : Around fs.cwd p) : Entry.IsDir (fs'.entry p) ↔ Entry.IsDir (fs.entry p) := by
  have hchild : InImages fs.cwd p → (Entry.IsDir (fs'.entry p) ↔ Entry.IsDir (fs.entry p)) := by
    intro hp
    rw [isDir_iff_look, isDir_iff_look, h.look hp]
  rcases hp with hp | hp
  · rcases List.suffix_cons_iff.mp hp with hp | hp
    · exact hchild (.inl hp)
    · have hcwd := fs'.cwd_dir
      rw [h.cwd] at hcwd
      exact iff_of_true (isDir_of_suffix hp hcwd) (isDir_of_suffix hp fs.cwd_dir)
  · exact hchild (.inr hp)

/-- The positions that have to be directories. -/
def trail : Path → List Name → List Path
  | _, [] => []
  | p, c :: cs => p :: trail (next p c) cs

theorem walk_eq (fs : FileSystem) (p : Path) (cs : List Name) : fs.walk p cs =
    if ∀ q ∈ trail p cs, Entry.IsDir (fs.entry q) then some (cs.foldl next p) else none := by
  induction cs generalizing p with
  | nil => simp [walk, trail]
  | cons c cs ih =>
    simp only [walk, trail, List.forall_mem_cons, List.foldl_cons, ih]
    by_cases hp : Entry.IsDir (fs.entry p)
    · simp [hp]
    · simp [hp]

def route (cwd : Path) (path : Bytes) : Path × List Name :=
  match cstr path with
  | 47 :: rest => ([], components rest)
  | p => (cwd, components p)

def passes (cwd : Path) (path : Bytes) : List Path := trail (route cwd path).1 (route cwd path).2

def goal (cwd : Path) (path : Bytes) : Path := (route cwd path).2.foldl next (route cwd path).1

theorem resolve_eq {fs : FileSystem} {path : Bytes} (h : cstr path ≠ []) : fs.resolve path =
    if ∀ q ∈ passes fs.cwd path, Entry.IsDir (fs.entry q) then some (goal fs.cwd path)
    else none := by
  unfold passes goal
  rw [← walk_eq]
  unfold resolve route
  split
  · contradiction
  · rename_i rest hrest
    rw [hrest]
    rfl
  · rename_i p hnil hslash
    split
    · rename_i rest hrest
      exact absurd hrest (hslash rest)
    · rfl

/-- A request whose answer depends on the image directory alone: it names nothing, or nothing
that can be opened, or only `images`, its ancestors and its direct children are passed on the
way to `images` or a direct child of it. -/
def Confined (cwd : Path) (limits : Limits) (path : Bytes) : Prop :=
  cstr path = [] ∨ TooLong limits path ∨
    (∀ q ∈ passes cwd path, Around cwd q) ∧ InImages cwd (goal cwd path)

/-- What the client of a GET_IMAGE request has been sent. -/
def answered (fuel : ℕ) (cmd : Bytes) (ws : List Outcome) (w : World P) (k : Socket) : Bytes :=
  (Prog.run World.answer .ok (serveGetImage fuel cmd) ws (w, k)).2.2.2.out

theorem run_serveGetImage (fuel : ℕ) {cmd : Bytes} (h : parseGetImage cmd ≠ []) (ws : List Outcome)
    (s : World P × Socket) : (Prog.run World.answer .ok (serveGetImage fuel cmd) ws s).2.2 =
      (Prog.run World.answer .ok (handleGetImage fuel (parseGetImage cmd)) ws s).2.2 := by
  rw [serveGetImage, if_neg h]
  refine Prog.run_bind_state (fun x => ?_) _ ws s
  cases x with
  | none => exact ⟨_, rfl⟩
  | some u => exact ⟨_, rfl⟩

/-- The read loop sends what the node holds, whatever the number of its inode. -/
theorem sendFile_node {w w' : World P} {e e' : Entry} (h : w.fs.node e = w'.fs.node e')
    (fuel pos : ℕ) (ws : List Outcome) (k : Socket) :
    (Prog.run World.answer .ok (sendFile e fuel pos) ws (w, k)).2.2.2.out =
      (Prog.run World.answer .ok (sendFile e' fuel pos) ws (w', k)).2.2.2.out := by
  induction fuel generalizing pos ws k with
  | zero => rfl
  | succ fuel ih =>
    rw [sendFile_succ, sendFile_succ, Prog.run_call_state, Prog.run_call_state, World.answer_read,
      World.answer_read, h]
    generalize (if (ws.headD .ok).failed then none else (w'.fs.node e').read pos 4096) = r
    match r with
    | none => rfl
    | some [] => rfl
    | some (c :: b) =>
      dsimp only
      rw [Prog.run_call_state, Prog.run_call_state, World.answer_sslWrite, World.answer_sslWrite]
      dsimp only
      split
      · split
        · rfl
        · exact ih _ _ _
      · rfl

theorem sendSized_node {w w' : World P} {e e' : Entry} (h : w.fs.node e = w'.fs.node e')
    (fuel : ℕ) (size : Bool × ℕ) (ws : List Outcome) (k : Socket) :
    (Prog.run World.answer .ok (sendSized e fuel size) ws (w, k)).2.2.2.out =
      (Prog.run World.answer .ok (sendSized e' fuel size) ws (w', k)).2.2.2.out := by
  rw [sendSized, sendSized, Prog.run_call_state, Prog.run_call_state, World.answer_sslWrite,
    World.answer_sslWrite]
  dsimp only
  split
  · split
    · exact sendFile_node h _ _ _ _
    · rfl
  · rfl

def FileSystem.shows (fs : FileSystem) (path : Bytes) : Option Node :=
  if fs.tooLong path then none else (fs.lookup path).map fs.node

theorem handleGetImage_shows {w w' : World P} {path : Bytes}
    (h : w.fs.shows path = w'.fs.shows path) (fuel : ℕ) (ws : List Outcome) (k : Socket) :
    (Prog.run World.answer .ok (handleGetImage fuel path) ws (w, k)).2.2.2.out =
      (Prog.run World.answer .ok (handleGetImage fuel path) ws (w', k)).2.2.2.out := by
  rw [handleGetImage_eq, Prog.run_call_state, Prog.run_call_state, World.answer_openRead,
    World.answer_openRead]
  have hfound : ((if (ws.headD .ok).failed || w.fs.tooLong path then none
        else w.fs.lookup path).map w.fs.node : Option Node) =
      (if (ws.headD .ok).failed || w'.fs.tooLong path then none
        else w'.fs.lookup path).map w'.fs.node := by
    cases (ws.headD Outcome.ok).failed
    · simpa only [FileSystem.shows, Bool.false_or, apply_ite (Option.map _), Option.map_none]
        using h
    · rfl
  revert hfound
  generalize (if (ws.headD .ok).failed || w.fs.tooLong path then none else w.fs.lookup path) = x
  generalize (if (ws.headD .ok).failed || w'.fs.tooLong path then none else w'.fs.lookup path) = x'
  intro hfound
  -- both find the same node or none, and go on alike
  cases x with
  | none =>
    obtain rfl : x' = none := by simpa using hfound.symm
    dsimp only
    rw [Prog.run_call_state, Prog.run_call_state, World.answer_sslWrite, World.answer_sslWrite]
    rfl
  | some e =>
    obtain ⟨e', rfl, he⟩ := Option.map_eq_some_iff.mp hfound.symm
    dsimp only
    rw [Prog.run_call_state, Prog.run_call_state, World.answer_seekEnd, World.answer_seekEnd, he]
    generalize (if (ws.tail.headD .ok).failed then none else some (w.fs.node e).size) = n
    cases n with
    | none => exact sendSized_node he.symm _ _ _ _
    | some n =>
      dsimp only
      rw [Prog.run_call_state, Prog.run_call_state]
      exact sendSized_node he.symm _ _ _ _

theorem lookup_goal {fs : FileSystem} {path : Bytes} (h : cstr path ≠ []) :
    (fs.lookup path).map fs.node =
      if ∀ q ∈ passes fs.cwd path, Entry.IsDir (fs.entry q) then fs.look (goal fs.cwd path)
      else none := by
  rw [FileSystem.lookup, resolve_eq h]
  split <;> rfl

theorem lookup_nil {fs : FileSystem} {path : Bytes} (h : cstr path = []) :
    fs.lookup path = none := by
  rw [FileSystem.lookup, FileSystem.resolve, h]
  rfl

/-- The image directory decides what a confined path shows. -/
theorem shows_of_confined {fs fs' : FileSystem} {path : Bytes} (h : AgreeOnImages fs fs')
    (hc : Confined fs.cwd fs.limits path) : fs.shows path = fs'.shows path := by
  have hlong := FileSystem.tooLong_congr h.limits path
  -- no name, a name that is too long, or a path along directories that both have
  rcases hc with hc | hc | ⟨hdirs, hgoal⟩
  · rw [FileSystem.shows, FileSystem.shows, hlong, lookup_nil hc, lookup_nil hc]
    rfl
  · rw [FileSystem.shows, FileSystem.shows, hlong, if_pos (tooLong_iff.mpr hc),
      if_pos (tooLong_iff.mpr hc)]
  · by_cases hnil : cstr path = []
    · rw [FileSystem.shows, FileSystem.shows, hlong, lookup_nil hnil, lookup_nil hnil]
      rfl
    · have hpass : (∀ q ∈ passes fs.cwd path, Entry.IsDir (fs'.entry q)) ↔
          ∀ q ∈ passes fs.cwd path, Entry.IsDir (fs.entry q) :=
        forall₂_congr fun q hq => h.isDir (hdirs q hq)
      rw [FileSystem.shows, FileSystem.shows, hlong, lookup_goal hnil, lookup_goal hnil, h.cwd,
        h.look hgoal]
      simp only [hpass]

theorem answered_of_shows {w w' : World P} {cmd : Bytes}
    (h : w.fs.shows (parseGetImage cmd) = w'.fs.shows (parseGetImage cmd)) (fuel : ℕ)
    (ws : List Outcome) (k : Socket) : answered fuel cmd ws w k = answered fuel cmd ws w' k := by
  unfold answered
  by_cases hnil : parseGetImage cmd = []
  · rw [serveGetImage, if_pos hnil, Prog.perform_bind, Prog.run_call_state, Prog.run_call_state,
      World.answer_sslWrite, World.answer_sslWrite]
    rfl
  · rw [run_serveGetImage fuel hnil, run_serveGetImage fuel hnil]
    exact handleGetImage_shows h fuel ws k

def directories (keep : Path → Bool) (size : Path → ℕ) (cwd : Path) (limits : Limits)
    (hroot : keep [] = true) (hcwd : keep cwd = true)
    (hparent : ∀ n p, keep (n :: p) = true → keep p = true) : FileSystem where
  entry p := if keep p then some (.dir (size p)) else none
  content _ := []
  fresh := 0
  cwd := cwd
  limits := limits
  root_dir := ⟨size [], by rw [hroot]; rfl⟩
  cwd_dir := ⟨size cwd, by rw [hcwd]; rfl⟩
  parent_dir n p h := by
    have hn : keep (n :: p) = true := by
      by_contra hn
      exact h (if_neg hn)
    exact ⟨size p, by rw [hparent n p hn]; rfl⟩
  ino_lt p i h := by split at h <;> cases h
  ino_inj p q i h := by split at h <;> cases h

section Directories

variable {keep : Path → Bool} {size : Path → ℕ} {cwd : Path} {limits : Limits}
  {hroot : keep [] = true} {hcwd : keep cwd = true}
  {hparent : ∀ n p, keep (n :: p) = true → keep p = true}

theorem look_directories (p : Path) :
    (directories keep size cwd limits hroot hcwd hparent).look p =
      if keep p then some (.dir (size p)) else none := by
  change Option.map _ (if keep p then some (Entry.dir (size p)) else none) = _
  split <;> rfl

theorem isDir_directories (p : Path) :
    Entry.IsDir ((directories keep size cwd limits hroot hcwd hparent).entry p) ↔
      keep p = true := by
  rw [isDir_iff_look, look_directories]
  split <;> simp_all

theorem shows_directories {path : Bytes} (hnil : cstr path ≠ [])
    (hlong : ¬TooLong limits path) :
    (directories keep size cwd limits hroot hcwd hparent).shows path =
      if (∀ q ∈ passes cwd path, keep q = true) ∧ keep (goal cwd path) = true then
        some (.dir (size (goal cwd path)))
      else none := by
  have htoo : (directories keep size cwd limits hroot hcwd hparent).tooLong path = false := by
    rw [← Bool.not_eq_true, tooLong_iff]
    exact hlong
  rw [FileSystem.shows, htoo, if_neg Bool.false_ne_true, lookup_goal hnil, look_directories]
  simp only [isDir_directories]
  rw [ite_and]
  rfl

end Directories

def above (L : List Path) (p : Path) : Bool := L.any fun q => p.isSuffixOf q

theorem above_iff {L : List Path} {p : Path} : above L p = true ↔ ∃ q ∈ L, p <:+ q := by
  simp [above]

theorem above_parent {L : List Path} (n : Name) (p : Path) (h : above L (n :: p) = true) :
    above L p = true := by
  obtain ⟨q, hq, hsuffix⟩ := above_iff.mp h
  exact above_iff.mpr ⟨q, hq, (List.suffix_cons n p).trans hsuffix⟩

theorem above_self {L : List Path} {p : Path} (h : p ∈ L) : above L p = true :=
  above_iff.mpr ⟨p, h, List.suffix_rfl⟩

theorem answered_dir {w : World P} {cmd : Bytes} {n : ℕ} (hne : parseGetImage cmd ≠ [])
    (h : w.fs.shows (parseGetImage cmd) = some (.dir n)) :
    answered 0 cmd [] w ⟨[], []⟩ = header n := by
  obtain ⟨hlong, e, hl, he⟩ : w.fs.tooLong (parseGetImage cmd) = false ∧
      ∃ e, w.fs.lookup (parseGetImage cmd) = some e ∧ w.fs.node e = .dir n := by
    unfold FileSystem.shows at h
    split at h
    · cases h
    · rename_i hlong
      exact ⟨by simpa only [Bool.not_eq_true] using hlong, Option.map_eq_some_iff.mp h⟩
  obtain rfl : e = .dir n := by
    cases e with
    | dir m =>
      cases he
      rfl
    | file i => cases he
  rw [answered, run_serveGetImage 0 hne, handleGetImage_eq, Prog.run_call_state,
    World.answer_openRead, hlong, hl]
  rfl

theorem answered_missing {w : World P} {cmd : Bytes} (hne : parseGetImage cmd ≠ [])
    (h : w.fs.shows (parseGetImage cmd) = none) :
    answered 0 cmd [] w ⟨[], []⟩ = notFound := by
  have hans : World.answer (([] : List Outcome).headD .ok) (.openRead (parseGetImage cmd))
      (w, ⟨[], []⟩) = (none, w, ⟨[], []⟩) := by
    rw [World.answer_openRead]
    simp only [List.headD_nil, Outcome.failed, Bool.false_or, Prod.mk.injEq, and_true]
    unfold FileSystem.shows at h
    split
    · rfl
    · rename_i hlong
      rw [if_neg hlong] at h
      exact Option.map_eq_none_iff.mp h
  rw [answered, run_serveGetImage 0 hne, handleGetImage_eq, Prog.run_call_state, hans]
  rfl

/-- Two trees that differ in the size of the directory the path leads to. -/
theorem goal_is_disclosed {cwd : Path} {limits : Limits} {path : Bytes} (hnil : cstr path ≠ [])
    (hlong : ¬TooLong limits path)
    (hgoal : ¬InImages cwd (goal cwd path)) :
    ∃ fs fs' : FileSystem, fs.cwd = cwd ∧ fs.limits = limits ∧ AgreeOnImages fs fs' ∧
      fs.shows path = some (.dir 0) ∧ fs'.shows path = some (.dir 1) := by
  let L := cwd :: goal cwd path :: passes cwd path
  have hroot : above L [] = true := above_iff.mpr ⟨cwd, List.mem_cons_self, List.nil_suffix⟩
  have hcwd : above L cwd = true := above_self List.mem_cons_self
  have hkeep : (∀ q ∈ passes cwd path, above L q = true) ∧ above L (goal cwd path) = true :=
    ⟨fun q hq => above_self (by simp [L, hq]), above_self (by simp [L])⟩
  let size (p : Path) : ℕ := if p = goal cwd path then 1 else 0
  have hlook : ∀ p, InImages cwd p →
      (directories (above L) size cwd limits hroot hcwd above_parent).look p =
        (directories (above L) (fun _ => 0) cwd limits hroot hcwd above_parent).look p := by
    intro p hp
    have hne : p ≠ goal cwd path := fun h => hgoal (h ▸ hp)
    rw [look_directories, look_directories, show size p = 0 from if_neg hne]
  refine ⟨directories (above L) (fun _ => 0) cwd limits hroot hcwd above_parent,
    directories (above L) size cwd limits hroot hcwd above_parent, rfl, rfl,
    ⟨rfl, rfl, hlook _ (.inl rfl), fun n => hlook _ (.inr ⟨n, rfl⟩)⟩, ?_, ?_⟩
  · rw [shows_directories hnil hlong, if_pos hkeep]
  · rw [shows_directories hnil hlong, if_pos hkeep, show size (goal cwd path) = 1 from if_pos rfl]

/-- Two trees of which one lacks a directory that the path passes. -/
theorem passed_is_disclosed {cwd : Path} {limits : Limits} {path : Bytes} (hnil : cstr path ≠ [])
    (hlong : ¬TooLong limits path) {r : Path}
    (hr : r ∈ passes cwd path) (haround : ¬Around cwd r) :
    ∃ fs fs' : FileSystem, fs.cwd = cwd ∧ fs.limits = limits ∧ AgreeOnImages fs fs' ∧
      fs.shows path = some (.dir 0) ∧ fs'.shows path = none := by
  let L := cwd :: goal cwd path :: passes cwd path
  -- the second tree lacks what lies below `r`
  let K (p : Path) : Bool := above L p && decide (¬r <:+ p)
  have hsuffix : ∀ p, K p = true ↔ above L p = true ∧ ¬r <:+ p := by simp [K]
  have hroot : above L [] = true := above_iff.mpr ⟨cwd, List.mem_cons_self, List.nil_suffix⟩
  have hcwd : above L cwd = true := above_self List.mem_cons_self
  have hkeep : (∀ q ∈ passes cwd path, above L q = true) ∧ above L (goal cwd path) = true :=
    ⟨fun q hq => above_self (by simp [L, hq]), above_self (by simp [L])⟩
  have hrimages : ∀ p, Around cwd p → ¬r <:+ p := by
    rintro p (hp | ⟨n, rfl⟩) hrp
    · exact haround (.inl (hrp.trans hp))
    · rcases List.suffix_cons_iff.mp hrp with rfl | hrp
      · exact haround (.inr ⟨n, rfl⟩)
      · exact haround (.inl hrp)
  have hrootK : K [] = true := (hsuffix _).mpr ⟨hroot, hrimages _ (.inl List.nil_suffix)⟩
  have hcwdK : K cwd = true :=
    (hsuffix _).mpr ⟨hcwd, hrimages _ (.inl (List.suffix_cons _ _))⟩
  have hparentK : ∀ n p, K (n :: p) = true → K p = true := by
    intro n p h
    obtain ⟨habove, hn⟩ := (hsuffix _).mp h
    exact (hsuffix _).mpr ⟨above_parent n p habove, fun hp => hn (hp.trans (List.suffix_cons n p))⟩
  have hlook : ∀ p, Around cwd p →
      (directories K (fun _ => 0) cwd limits hrootK hcwdK hparentK).look p =
        (directories (above L) (fun _ => 0) cwd limits hroot hcwd above_parent).look p := by
    intro p hp
    rw [look_directories, look_directories]
    simp only [hsuffix, hrimages p hp, not_false_eq_true, and_true]
  refine ⟨directories (above L) (fun _ => 0) cwd limits hroot hcwd above_parent,
    directories K (fun _ => 0) cwd limits hrootK hcwdK hparentK, rfl, rfl,
    ⟨rfl, rfl, hlook _ (.inl List.suffix_rfl), fun n => hlook _ (.inr ⟨n, rfl⟩)⟩, ?_, ?_⟩
  · rw [shows_directories hnil hlong, if_pos hkeep]
  · rw [shows_directories hnil hlong, if_neg]
    rintro ⟨h, -⟩
    exact ((hsuffix r).mp (h r hr)).2 List.suffix_rfl

/-- The answers to a request depend on nothing but the image directory if and only if the path
keeps to that directory. -/
theorem get_image_is_confined_iff (cmd : Bytes) (cwd : Path) (limits : Limits) :
    (∀ (fuel : ℕ) (ws : List Outcome) (w w' : World P) (k : Socket), w.fs.cwd = cwd →
      w.fs.limits = limits → AgreeOnImages w.fs w'.fs →
      answered fuel cmd ws w k = answered fuel cmd ws w' k) ↔
    Confined cwd limits (parseGetImage cmd) := by
  constructor
  · intro h
    by_contra hc
    simp only [Confined, not_or] at hc
    obtain ⟨hnil, hlong, hpath⟩ := hc
    have hne : parseGetImage cmd ≠ [] := fun h => hnil (by rw [h]; rfl)
    have hsame : ∀ fs fs' : FileSystem, fs.cwd = cwd → fs.limits = limits →
        AgreeOnImages fs fs' → answered 0 cmd [] ⟨fs, Reference.emptyDb P⟩ ⟨[], []⟩ =
          answered 0 cmd [] ⟨fs', Reference.emptyDb P⟩ ⟨[], []⟩ :=
      fun fs fs' hcwd hmax hagree => h 0 [] ⟨fs, _⟩ ⟨fs', _⟩ ⟨[], []⟩ hcwd hmax hagree
    by_cases hgoal : InImages cwd (goal cwd (parseGetImage cmd))
    · obtain ⟨r, hr, haround⟩ : ∃ r ∈ passes cwd (parseGetImage cmd), ¬Around cwd r := by
        by_contra hall
        push Not at hall
        exact hpath ⟨hall, hgoal⟩
      obtain ⟨fs, fs', hcwd, hmax, hagree, hdir, hmissing⟩ :=
        passed_is_disclosed hnil hlong hr haround
      have heq := hsame fs fs' hcwd hmax hagree
      rw [answered_dir hne hdir, answered_missing hne hmissing] at heq
      exact absurd heq (by decide)
    · obtain ⟨fs, fs', hcwd, hmax, hagree, hdir, hdir'⟩ := goal_is_disclosed hnil hlong hgoal
      have heq := hsame fs fs' hcwd hmax hagree
      rw [answered_dir hne hdir, answered_dir hne hdir'] at heq
      exact absurd heq (by decide)
  · intro hc fuel ws w w' k hcwd hmax hagree
    subst hcwd hmax
    exact answered_of_shows (shows_of_confined hagree hc) fuel ws k

/-- A directory with nothing but a database file. -/
def databaseFs (content : Bytes) : FileSystem :=
  (Reference.emptyFs.createFile (ascii "server_data.db") [] ⟨0, rfl⟩ rfl).setContent 0 content

theorem agree_databaseFs (a b : Bytes) : AgreeOnImages (databaseFs a) (databaseFs b) := by
  have hlook : ∀ c n l, (databaseFs c).look (n :: images :: l) = none := by
    intro c n l
    have hne : n :: images :: l ≠ [ascii "server_data.db"] :=
      fun h => absurd (congrArg List.length h) (by simp)
    change Option.map _ (Function.update Reference.emptyFs.entry [ascii "server_data.db"] _
      (n :: images :: l)) = none
    rw [Function.update_of_ne hne]
    rfl
  refine ⟨rfl, rfl, rfl, fun n => ?_⟩
  exact (hlook b n _).trans (hlook a n _).symm

/-- A client downloads what lies next to the image directory. -/
theorem database_file_is_disclosed :
    ∃ w w' : World .reference, AgreeOnImages w.fs w'.fs ∧
      answered 1 (ascii "GET_IMAGE server_data.db\n") [] w ⟨[], []⟩ = header 1 ++ ascii "x" ∧
      answered 1 (ascii "GET_IMAGE server_data.db\n") [] w' ⟨[], []⟩ = header 1 ++ ascii "y" ∧
      header 1 ++ ascii "x" ≠ header 1 ++ ascii "y" :=
  ⟨Reference.world (databaseFs (ascii "x")), Reference.world (databaseFs (ascii "y")),
    agree_databaseFs _ _, by decide, by decide, by decide⟩

end CctvServer
