import CctvServer.UploadOutcome

namespace CctvServer

open ImageHandler

variable {P : Platform}

/-- The names that pass the check of an upload of at least one byte. -/
def NamePasses (filename : Bytes) : Prop :=
  filename ≠ [] ∧ ¬ ascii ".." <:+: filename ∧ (47 : UInt8) ∉ filename ∧ (92 : UInt8) ∉ filename

instance (filename : Bytes) : Decidable (NamePasses filename) :=
  inferInstanceAs (Decidable (_ ∧ _ ∧ _ ∧ _))

/-- The path of an image is too long for the system exactly if its name is. -/
theorem tooLong_fullPath {fs : FileSystem} {filename : Bytes} (h : (47 : UInt8) ∉ filename)
    (himages : fs.tooLong images = false) :
    fs.tooLong (fullPath filename) = decide (fs.limits.nameMax < (cstr filename).length) := by
  have hslash : (47 : UInt8) ∉ cstr filename := fun hc => h (cstr_subset filename hc)
  have hcomponents :
      FileSystem.components (cstr (fullPath filename)) = [images, cstr filename] := by
    rw [cstr_fullPath, FileSystem.components_append _ (by decide),
      FileSystem.components_of_notMem hslash]
  have hdir : images.length ≤ fs.limits.nameMax := by
    by_contra hdir
    have hsplit : FileSystem.components (cstr images) = [images] := by decide
    have hlong : FileSystem.TooLong fs.limits images :=
      .inr ⟨images, by rw [hsplit]; exact List.mem_singleton_self _, not_le.mp hdir⟩
    rw [FileSystem.tooLong_iff.mpr hlong] at himages
    cases himages
  have hlength : (cstr (fullPath filename)).length = 6 + 1 + (cstr filename).length := by
    rw [cstr_fullPath, List.length_append, List.length_cons]
    change 6 + _ = _
    omega
  have hpath := fs.limits.two_names
  change 6 ≤ fs.limits.nameMax at hdir
  -- the path is too long only if the name is
  refine decide_eq_decide.mpr ⟨?_, fun hname => .inr ⟨_, by simp [hcomponents], hname⟩⟩
  rintro (hlong | ⟨c, hc, hlong⟩)
  · omega
  · rw [hcomponents] at hc
    rcases List.mem_cons.mp hc with rfl | hc
    · exact absurd hlong (not_lt.mpr hdir)
    · exact List.mem_singleton.mp hc ▸ hlong

section Runs

variable {filename : Bytes} {n : ℕ} {s s' : World P × Socket} {tr : List (Event (Res (P := P)))}
  {x : Option Bytes}

theorem runs_upload_refused (hv : validUpload filename n = false)
    (himages : s.1.fs.tooLong images = false)
    (h : Prog.Runs (World.Serves World.Uploading) (handleImageUpload filename n) s tr x s') :
    x = some (uploadError 400 "Invalid filename or filesize") := by
  rw [handleImageUpload_eq, hv] at h
  rcases Prog.runs_bind.mp h with ⟨_, s₁, tr₁, tr₂, -, ⟨-, hx, -⟩, -⟩ | ⟨-, hens⟩
  · exact hx
  · obtain ⟨-, hlong⟩ | ⟨hx, -⟩ := runs_ensureImages (fun _ _ h => h) hens
    · rw [himages] at hlong
      cases hlong
    · cases hx

theorem runs_upload_tooLong (hv : validUpload filename n = true)
    (hlong : s.1.fs.tooLong (fullPath filename) = true)
    (h : Prog.Runs (World.Serves World.Uploading) (handleImageUpload filename n) s tr x s') :
    x = none := by
  rw [handleImageUpload_eq, hv] at h
  rcases Prog.runs_bind.mp h with ⟨_, s₁, tr₁, tr₂, hens, hrun, -⟩ | ⟨hx, -⟩
  · obtain ⟨hx, -⟩ | ⟨-, -, -, -, hfs⟩ := runs_ensureImages (fun _ _ h => h) hens
    · cases hx
    have hlimits : s₁.1.fs.limits = s.1.fs.limits := by
      rcases hfs with hfs | hmk
      · rw [hfs]
      · exact FileSystem.mkdir_limits hmk
    have hlong₁ : s₁.1.fs.tooLong (fullPath filename) = true :=
      (FileSystem.tooLong_congr hlimits _).trans hlong
    obtain ⟨found, s₂, tr₃, ⟨w, -, hans⟩, hrun, -⟩ := hrun
    obtain ⟨w₁, k₁⟩ := s₁
    simp only [World.answer, hlong₁, Bool.or_true, if_true] at hans
    cases hans
    exact hrun.2.1
  · exact hx

/-- An upload is answered, after a bounded number of calls, exactly if its name is refused
or fits the file system; otherwise the exception leaves the handler. -/
theorem upload_returns_iff (hn : 1 ≤ n) (himages : s.1.fs.tooLong images = false)
    (h : Prog.Runs (World.Serves World.Uploading) (handleImageUpload filename n) s tr x s') :
    tr.length ≤ 2 * n + 6 ∧ ((∃ reply, x = some reply) ↔
      ¬NamePasses filename ∨ (cstr filename).length ≤ s.1.fs.limits.nameMax) := by
  refine ⟨(atMost_handleImageUpload filename n).of_runs h, ?_⟩
  by_cases hname : NamePasses filename
  · have hv : validUpload filename n = true := (validUpload_iff hn).mpr hname
    have hlong := tooLong_fullPath hname.2.2.1 himages
    by_cases hlength : (cstr filename).length ≤ s.1.fs.limits.nameMax
    · refine iff_of_true ?_ (.inr hlength)
      rw [decide_eq_false (by omega)] at hlong
      cases runs_handleImageUpload (fun _ _ h => h) h with
      | thrown hthrown =>
        rw [himages, hlong] at hthrown
        simp at hthrown
      | refused code message => exact ⟨_, rfl⟩
      | stored => exact ⟨_, rfl⟩
    · rw [decide_eq_true (by omega)] at hlong
      rw [runs_upload_tooLong hv hlong h]
      refine iff_of_false (by simp) ?_
      exact not_or.mpr ⟨not_not.mpr hname, hlength⟩
  · have hv : validUpload filename n = false := by
      rw [Bool.eq_false_iff]
      exact fun hv => hname ((validUpload_iff hn).mp hv)
    rw [runs_upload_refused hv himages h]
    exact iff_of_true ⟨_, rfl⟩ (.inl hname)

end Runs

def imagesFs : FileSystem := (Reference.emptyFs.mkdir images).getD Reference.emptyFs

def longName : Bytes := List.replicate 256 97

/-- The name is accepted and too long, and no run of its upload returns. -/
theorem long_name_throws : imagesFs.lookup images = some (.dir 0) ∧
    imagesFs.tooLong images = false ∧
    ¬ ∀ tr x s', Prog.Runs (World.Serves World.Uploading) (handleImageUpload longName 1)
      (Reference.world imagesFs, ⟨ascii "x", []⟩) tr x s' → ∃ reply, x = some reply := by
  refine ⟨by decide, by decide, fun h => ?_⟩
  have hrun := (Server.runs (handleImageUpload longName 1)
    (Reference.world imagesFs, ⟨ascii "x", []⟩) (x := none) (by decide +kernel)).mono
    fun _ _ _ _ => World.serves_mono World.Uploading.of_faultless
  obtain ⟨reply, hreply⟩ := h _ _ _ hrun
  cases hreply

theorem short_name_returns : ∃ tr x s',
    Prog.Runs (World.Serves World.Uploading) (handleImageUpload (ascii "a") 1)
      (Reference.world imagesFs, ⟨ascii "x", []⟩) tr x s' ∧ ∃ reply, x = some reply := by
  have hrun := (Server.runs (handleImageUpload (ascii "a") 1)
    (Reference.world imagesFs, ⟨ascii "x", []⟩) rfl).mono
    fun _ _ _ _ => World.serves_mono World.Uploading.of_faultless
  exact ⟨_, _, _, hrun, (upload_returns_iff le_rfl (by decide) hrun).2.mpr (.inr (by decide))⟩

end CctvServer
