import CctvServer.ImageTransfer
import CctvServer.JsonText
import CctvServer.LongNames
import CctvServer.TcpServer

namespace CctvServer

open ImageHandler JsonText TcpServer

variable {P : Platform}

/-- The reply is a JSON object with the four members of a success reply, and its path
is this one. -/
def NamesFile (reply path : Bytes) : Prop :=
  ∃ members, Parses reply (.obj members) ∧
    (members.map Prod.fst).Perm
      [ascii "status", ascii "code", ascii "message", ascii "path"] ∧
    (ascii "path", .str path) ∈ members

/-- The name is UTF-8 without quotes and control characters. -/
def Quotable (filename : Bytes) : Prop :=
  (∀ c ∈ filename, 32 ≤ c ∧ c ≠ 34) ∧ Utf8.valid filename = true

instance (filename : Bytes) : Decidable (Quotable filename) :=
  inferInstanceAs (Decidable ((∀ c ∈ filename, _) ∧ _))

def uploadSuccessHead : Bytes :=
  ascii ("\x7b\"status\":\"success\",\"code\":200,\"message\":\"Image uploaded successfully\"," ++
    "\"path\":\"") ++ ascii "images/"

theorem uploadSuccess_fullPath (filename : Bytes) :
    uploadSuccess (fullPath filename) = uploadSuccessHead ++ (filename ++ ascii "\"\x7d") := by
  simp [uploadSuccess, fullPath, uploadSuccessHead]

theorem utf8_uploadSuccess (filename : Bytes) :
    Utf8.valid (uploadSuccess (fullPath filename)) = true ↔ Utf8.valid filename = true := by
  have hhead : Utf8.acceptsFrom 0 uploadSuccessHead = true := by decide
  rw [uploadSuccess_fullPath, Utf8.valid, Utf8.acceptsFrom_append _ hhead]
  constructor
  · exact fun h => Utf8.acceptsFrom_before (by decide) h
  · exact fun h => Utf8.valid_append h (by decide)

/-- A name that can stand between quotes is read back as it is. -/
theorem namesFile_of_quotable {filename : Bytes} (h92 : (92 : UInt8) ∉ filename)
    (h : Quotable filename) :
    NamesFile (uploadSuccess (fullPath filename)) (fullPath filename) := by
  have hpath : ∀ c ∈ fullPath filename, 32 ≤ c ∧ c ≠ 34 ∧ c ≠ 92 := by
    refine List.forall_mem_append.mpr ⟨by decide, fun c hc => ?_⟩
    obtain ⟨hlow, hquote⟩ := h.1 c hc
    exact ⟨hlow, hquote, fun h => h92 (h ▸ hc)⟩
  have htext : uploadSuccess (fullPath filename) = 123 :: joinMembers []
      [(ascii "status", ascii "\"success\"", .str (ascii "success")),
        (ascii "code", ascii "200", .number (ascii "200")),
        (ascii "message", ascii "\"Image uploaded successfully\"",
          .str (ascii "Image uploaded successfully")),
        (ascii "path", 34 :: fullPath filename ++ [34], .str (fullPath filename))] ++ [125] := by
    have hhead : uploadSuccessHead = 123 :: joinMembers []
        [(ascii "status", ascii "\"success\"", .str (ascii "success")),
          (ascii "code", ascii "200", .number (ascii "200")),
          (ascii "message", ascii "\"Image uploaded successfully\"",
            .str (ascii "Image uploaded successfully")),
          (ascii "path", ascii "\"images/", .null)] := by decide
    have hlast : ascii "\"images/" = 34 :: ascii "images/" := by decide
    have htail : ascii "\"\x7d" = [34, 125] := by decide
    rw [uploadSuccess_fullPath, hhead, htail, hlast]
    simp [joinMembers, fullPath]
  have hplain : ∀ s, Plain s → Denotes (34 :: s ++ [34]) (.value (.str s)) := fun s hs =>
    .str hs.quoted
  have hcode : Number (ascii "200") := Json.number_decimalInt 200
  refine ⟨_, parses_joinMembers htext ((utf8_uploadSuccess filename).mpr h.2)
    (List.forall_mem_nil _) (by simp) ?_, .refl _, by simp⟩
  simp only [List.forall_mem_cons, List.not_mem_nil, false_imp_iff, implies_true, and_true]
  exact ⟨⟨by decide, hplain (ascii "success") (by decide)⟩, ⟨by decide, .number hcode⟩,
    ⟨by decide, hplain (ascii "Image uploaded successfully") (by decide)⟩, by decide,
    .str (.mk (body_verbatim hpath))⟩

theorem quotable_of_namesFile {filename : Bytes} (hspace : ∀ c ∈ filename, isSpace c = false)
    (h92 : (92 : UInt8) ∉ filename)
    (h : NamesFile (uploadSuccess (fullPath filename)) (fullPath filename)) :
    Quotable filename := by
  obtain ⟨members, hparses, -, hmem⟩ := h
  have hslash : (92 : UInt8) ∉ uploadSuccess (fullPath filename) := by
    rw [uploadSuccess_fullPath, List.mem_append, List.mem_append, not_or, not_or]
    exact ⟨by decide, h92, by decide⟩
  have hquote : (34 : UInt8) ∉ fullPath filename := hparses.quote_notMem hslash hmem
  refine ⟨fun c hc => ⟨?_, ?_⟩, (utf8_uploadSuccess filename).mp hparses.utf8⟩
  · have hallowed : Allowed c := by
      refine hparses.allowed c ?_
      rw [uploadSuccess_fullPath]
      simp [hc]
    refine hallowed.resolve_right fun hblank => ?_
    have hnot := hspace c hc
    simp only [isBlank, Bool.or_eq_true, beq_iff_eq] at hblank
    rcases hblank with ((rfl | rfl) | rfl) | rfl <;> exact absurd hnot (by decide)
  · rintro rfl
    exact hquote (List.mem_append_right _ hc)

def getImageLine (path : Bytes) : Bytes := ascii "GET_IMAGE " ++ path ++ [10]

theorem parseGetImage_line {filename : Bytes} (hspace : ∀ c ∈ filename, isSpace c = false) :
    parseGetImage (getImageLine (fullPath filename)) = fullPath filename := by
  have hpath : ∀ c ∈ fullPath filename, isSpace c = false :=
    List.forall_mem_append.mpr ⟨by decide, hspace⟩
  have hne : fullPath filename ≠ [] := by simp [fullPath, ascii]
  have hwords : words (getImageLine (fullPath filename)) =
      [ascii "GET_IMAGE", fullPath filename] := by
    have hline : getImageLine (fullPath filename) =
        ascii "GET_IMAGE" ++ 32 :: (fullPath filename ++ [10]) := by
      have hcommand : ascii "GET_IMAGE " = ascii "GET_IMAGE" ++ [32] := by decide
      simp [getImageLine, hcommand]
    rw [hline, words_append_space _ (by decide) (by decide) (by decide),
      words_append_space _ hne hpath (by decide), words_nil]
  obtain ⟨-, hrest⟩ := IStream.word_eq (IStream.ofBytes (getImageLine (fullPath filename)))
  rw [parseGetImage, (IStream.word_eq _).1, hrest, IStream.tokens_ofBytes, hwords]
  rfl

theorem runs_serveGetImage {fuel ino : ℕ} {filename content : Bytes} {w : World P} {k : Socket}
    {tr : List (Event (Res (P := P)))} {x : Option (Option Bool)} {s' : World P × Socket}
    (hspace : ∀ c ∈ filename, isSpace c = false)
    (hread : Readable w.fs (fullPath filename) ino content) (hfuel : content.length < 4096 * fuel)
    (h : Prog.Runs (World.Serves World.Faultless)
      (serveGetImage fuel (getImageLine (fullPath filename))) (w, k) tr x s') :
    x = some (some true) ∧ s'.2.out = k.out ++ (header content.length ++ content) := by
  have hne : fullPath filename ≠ [] := by simp [fullPath, ascii]
  rw [serveGetImage, parseGetImage_line hspace, if_neg hne] at h
  rcases Prog.runs_bind.mp h with ⟨y, s₁, tr₁, tr₂, hget, hrest, -⟩ | ⟨-, hget⟩
  · obtain ⟨hy, hout⟩ := runs_handleGetImage hread hfuel
      (hget.mono fun _ t _ _ hE => ⟨t.1, KeepsFile.refl _ _ _, hE⟩)
    cases hy
    obtain ⟨-, rfl, rfl⟩ := hrest
    exact ⟨rfl, hout⟩
  · obtain ⟨hy, -⟩ := runs_handleGetImage hread hfuel
      (hget.mono fun _ t _ _ hE => ⟨t.1, KeepsFile.refl _ _ _, hE⟩)
    cases hy

/-- The reply to a successful upload is JSON with the path that GET_IMAGE takes exactly if
the name can stand between quotes as it is. -/
theorem upload_reply_names_file_iff {filename reply : Bytes} {n : ℕ} {s s₁ : World P × Socket}
    {tr : List (Event (Res (P := P)))} (hspace : ∀ c ∈ filename, isSpace c = false)
    (h : Prog.Runs (World.Serves World.Uploading) (handleImageUpload filename n) s tr (some reply)
      s₁) (hsuccess : ∀ code message, reply ≠ uploadError code message) :
    NamesFile reply (fullPath filename) ∧
      (∀ {fuel : ℕ} {k : Socket} {tr' : List (Event (Res (P := P)))} {x : Option (Option Bool)}
        {s' : World P × Socket}, n < 4096 * fuel →
        Prog.Runs (World.Serves World.Faultless)
          (serveGetImage fuel (getImageLine (fullPath filename))) (s₁.1, k) tr' x s' →
        x = some (some true) ∧
          s'.2.out = k.out ++ (header n ++ s.2.inp.take n)) ↔
      Quotable filename := by
  generalize hx : some reply = y at h
  cases runs_handleImageUpload (fun _ _ h => h) h with
  | thrown => cases hx
  | refused code message => exact absurd (Option.some.inj hx) (hsuccess code message)
  | stored ino hv hname hmissing hsmooth hentry hlookup hshort hcontent hconsumed =>
    obtain rfl := Option.some.inj hx
    have hcheck : (92 : UInt8) ∉ filename := by
      simp only [validUpload, contains, Bool.not_eq_true', Bool.or_eq_false_iff,
        decide_eq_false_iff_not, List.singleton_infix_iff] at hv
      exact hv.2
    have htake := hsmooth.take_inp hconsumed
    have hlength : (s.2.inp.take n).length = n := by rw [htake, hsmooth.complete]
    have hread : Readable s₁.1.fs (fullPath filename) ino (s.2.inp.take n) :=
      ⟨hlookup, by rw [hcontent, htake], hshort⟩
    constructor
    · exact fun h => quotable_of_namesFile hspace hcheck h.1
    · intro hquotable
      refine ⟨namesFile_of_quotable hcheck hquotable, fun {fuel k tr' x s'} hfuel hget => ?_⟩
      obtain ⟨hx, hout⟩ := runs_serveGetImage hspace hread (hlength.symm ▸ hfuel) hget
      rw [hlength] at hout
      exact ⟨hx, hout⟩

def uploadsOne (filename : Bytes) : Server .reference Bytes := handleImageUpload filename 1

/-- The reply to an upload named a"b ends its path at the quote. -/
theorem quoted_name_breaks_reply : ∃ tr s₁,
    Prog.Runs (World.Serves World.Uploading) (uploadsOne (ascii "a\"b"))
      (Reference.world Reference.emptyFs, ⟨ascii "x", []⟩) tr
      (some (uploadSuccess (fullPath (ascii "a\"b")))) s₁ ∧
    ¬NamesFile (uploadSuccess (fullPath (ascii "a\"b"))) (fullPath (ascii "a\"b")) := by
  have hrun := (Server.runs (uploadsOne (ascii "a\"b"))
    (Reference.world Reference.emptyFs, ⟨ascii "x", []⟩)
    (x := some (uploadSuccess (fullPath (ascii "a\"b")))) (by decide)).mono
    fun _ _ _ _ => World.serves_mono World.Uploading.of_faultless
  refine ⟨_, _, hrun, fun h => ?_⟩
  exact absurd (quotable_of_namesFile (by decide) (by decide) h) (by decide)

theorem plain_name_is_named : ∃ tr s₁,
    Prog.Runs (World.Serves World.Uploading) (uploadsOne (ascii "a"))
      (Reference.world Reference.emptyFs, ⟨ascii "x", []⟩) tr
      (some (uploadSuccess (fullPath (ascii "a")))) s₁ ∧
    NamesFile (uploadSuccess (fullPath (ascii "a"))) (fullPath (ascii "a")) ∧
    ∃ tr' s', Prog.Runs (World.Serves World.Faultless)
      (serveGetImage 1 (getImageLine (fullPath (ascii "a")))) (s₁.1, ⟨[], []⟩) tr'
      (some (some true)) s' ∧ s'.2.out = header 1 ++ ascii "x" := by
  have hrun := (Server.runs (uploadsOne (ascii "a"))
    (Reference.world Reference.emptyFs, ⟨ascii "x", []⟩)
    (x := some (uploadSuccess (fullPath (ascii "a")))) (by decide)).mono
    fun _ _ _ _ => World.serves_mono World.Uploading.of_faultless
  obtain ⟨hnames, hget⟩ := (upload_reply_names_file_iff (by decide) hrun
    fun code message h => uploadError_ne_success _ code message h.symm).mpr (by decide)
  have hget' := Server.runs (serveGetImage 1 (getImageLine (fullPath (ascii "a"))))
    ((Server.run (uploadsOne (ascii "a"))
      (Reference.world Reference.emptyFs, ⟨ascii "x", []⟩)).2.2.1, ⟨[], []⟩)
    (x := some (some true)) (by decide)
  exact ⟨_, _, hrun, hnames, _, _, hget', (hget (by decide) hget').2⟩

end CctvServer
