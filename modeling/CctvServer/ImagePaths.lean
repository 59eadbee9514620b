import CctvServer.ImageHandler

namespace CctvServer

open ImageHandler FileSystem

/-- A name that leads from a directory to an entry of its own. -/
structure FileName (name : Bytes) : Prop where
  ne_nil : cstr name ≠ []
  ne_dot : cstr name ≠ [46]
  ne_dots : cstr name ≠ [46, 46]
  no_slash : (47 : UInt8) ∉ cstr name

/-- The name check of an upload leaves two names that lead to a directory itself. -/
theorem fileName_of_valid {name : Bytes} {size : ℕ} (h : validUpload name size = true)
    (hnil : cstr name ≠ []) (hdot : cstr name ≠ [46]) : FileName name := by
  simp only [validUpload, Bool.not_eq_true', Bool.or_eq_false_iff, contains,
    decide_eq_false_iff_not] at h
  obtain ⟨⟨⟨-, hdots⟩, hslash⟩, -⟩ := h
  have hprefix : cstr name <+: name := List.takeWhile_prefix _
  refine ⟨hnil, hdot, fun h => hdots ?_, fun h => hslash ?_⟩
  · rw [show ascii ".." = cstr name from h.symm]
    exact hprefix.isInfix
  · exact (List.singleton_infix_iff _ _).mpr (cstr_subset name h)

theorem cstr_fullPath (name : Bytes) : cstr (fullPath name) = images ++ 47 :: cstr name := by
  rw [fullPath, cstr_append _ (by decide)]
  rfl

theorem cstr_fullPath_congr {a b : Bytes} (h : cstr a = cstr b) :
    cstr (fullPath a) = cstr (fullPath b) := by
  rw [cstr_fullPath, cstr_fullPath, h]

section Resolution

variable {fs fs' : FileSystem} {name : Bytes}

theorem resolve_images (fs : FileSystem) : fs.resolve images = some (images :: fs.cwd) := by
  change fs.walk fs.cwd (components images) = _
  rw [components_of_notMem (by decide), walk, if_pos fs.cwd_dir]
  rfl

theorem resolve_fullPath_walk (fs : FileSystem) (name : Bytes) :
    fs.resolve (fullPath name) = fs.walk (images :: fs.cwd) (components (cstr name)) := by
  have hrelative : fs.resolve (fullPath name) =
      fs.walk fs.cwd (components (cstr (fullPath name))) := by
    rw [resolve, cstr_fullPath]
    rfl
  have himages : next fs.cwd images = images :: fs.cwd := rfl
  rw [hrelative, cstr_fullPath, components_append _ (by decide), walk, if_pos fs.cwd_dir, himages]

theorem resolve_fullPath (h : FileName name) : fs.resolve (fullPath name) =
    if Entry.IsDir (fs.entry (images :: fs.cwd)) then some (cstr name :: images :: fs.cwd)
    else none := by
  have hnext : next (images :: fs.cwd) (cstr name) = cstr name :: images :: fs.cwd := by
    rw [next, if_neg (not_or.mpr ⟨h.ne_nil, h.ne_dot⟩), if_neg h.ne_dots]
  rw [resolve_fullPath_walk, components_of_notMem h.no_slash, walk, hnext]
  rfl

theorem resolve_fullPath_dir (h : cstr name = [] ∨ cstr name = [46]) :
    fs.resolve (fullPath name) =
      if Entry.IsDir (fs.entry (images :: fs.cwd)) then some (images :: fs.cwd) else none := by
  have hslash : (47 : UInt8) ∉ cstr name := by
    rcases h with h | h <;> rw [h] <;> decide
  have hnext : next (images :: fs.cwd) (cstr name) = images :: fs.cwd := by
    rw [next, if_pos h]
  rw [resolve_fullPath_walk, components_of_notMem hslash, walk, hnext]
  rfl

/-- A name under which a missing file is found to be creatable is a proper one. -/
theorem fileName_of_missing {size : ℕ} {p : Path} (hv : validUpload name size = true)
    (hr : fs.resolve (fullPath name) = some p) (hp : fs.entry p = none) : FileName name := by
  have hother : ¬(cstr name = [] ∨ cstr name = [46]) := by
    intro h
    rw [resolve_fullPath_dir h] at hr
    split at hr
    · rename_i hdir
      obtain ⟨n, hn⟩ := hdir
      cases hr
      rw [hp] at hn
      cases hn
    · cases hr
  exact fileName_of_valid hv (fun h => hother (.inl h)) fun h => hother (.inr h)

theorem lookup_fullPath (h : FileName name) :
    fs.lookup (fullPath name) = fs.entry (cstr name :: images :: fs.cwd) := by
  rw [lookup, resolve_fullPath h]
  split
  · rfl
  · rename_i hdir
    cases he : fs.entry (cstr name :: images :: fs.cwd) with
    | none => rfl
    | some e => exact absurd (fs.parent_dir _ _ (by rw [he]; exact Option.some_ne_none e)) hdir

theorem mkdir_images (hmk : fs.mkdir images = some fs') :
    fs' = fs ∨ fs.entry (images :: fs.cwd) = none ∧
      fs'.entry = Function.update fs.entry (images :: fs.cwd) (some (.dir 0)) ∧
      fs'.content = Function.update fs.content fs.fresh [] ∧ fs'.cwd = fs.cwd := by
  unfold mkdir at hmk
  rw [resolve_images] at hmk
  dsimp only at hmk
  split at hmk
  · cases hmk
    exact .inl rfl
  · cases hmk
  · rename_i hn
    rw [dif_pos fs.cwd_dir] at hmk
    cases hmk
    exact .inr ⟨hn, rfl, rfl, rfl⟩

theorem mkdir_images_new (hn : fs.entry (images :: fs.cwd) = none) :
    ∃ fs', fs.mkdir images = some fs' := by
  unfold mkdir
  rw [resolve_images]
  dsimp only
  split
  · exact ⟨_, rfl⟩
  · rename_i h
    rw [hn] at h
    cases h
  · rw [dif_pos fs.cwd_dir]
    exact ⟨_, rfl⟩

theorem lookup_mkdir_images (h : FileName name) (hmk : fs.mkdir images = some fs') :
    fs'.lookup (fullPath name) = fs.lookup (fullPath name) := by
  rw [lookup_fullPath h, lookup_fullPath h]
  rcases mkdir_images hmk with rfl | ⟨-, hentry, -, hcwd⟩
  · rfl
  · have hne : cstr name :: images :: fs.cwd ≠ images :: fs.cwd :=
      fun he => absurd (congrArg List.length he) (by simp)
    rw [hcwd, hentry, Function.update_of_ne hne]

end Resolution

end CctvServer
