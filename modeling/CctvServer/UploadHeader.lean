import CctvServer.Reference
import CctvServer.TcpServer

namespace CctvServer

open ImageHandler IStream TcpServer

variable {P : Platform}

structure UploadHeader (ws : List Bytes) (name : Bytes) (size : ℕ) : Prop where
  named : ws[1]? = some name
  sized : ∃ t, ws[2]? = some t ∧ IsNumeral t ∧ digitsValue t = size
  pos : 1 ≤ size
  lt : size < 2 ^ 64

/-- What an UPLOAD line should lead to: the upload that its header announces, or the refusal. -/
inductive ReadsHeader (E : Env (Res (P := P)) (World P × Socket)) (ws : List Bytes)
    (s : World P × Socket) (tr : List (Event (Res (P := P)))) (x : Option Unit)
    (s' : World P × Socket) : Prop
  | upload (name : Bytes) (size garbage : ℕ) (later : List (Event (Res (P := P))))
      (header : UploadHeader ws name size) (trace : tr = ⟨.uninitialised, garbage⟩ :: later)
      (run : Prog.Runs E (handleImageUpload name size >>= fun result =>
        .call (.sslWrite (terminate result)) fun _ => .ret ()) s later x s')
  | refusal (garbage : ℕ) (sent : Bool) (header : ¬∃ name size, UploadHeader ws name size)
      (trace : tr = [⟨.uninitialised, garbage⟩, ⟨.sslWrite invalidUpload, sent⟩])
      (result : x = some ()) (world : s'.1 = s.1) (unread : s'.2.inp = s.2.inp)

/-- The lines whose size is read exactly: it is not missing, and it is a numeral in range or has
no digits but zeros. -/
def SizeIsClear (ws : List Bytes) : Prop :=
  ws.length ≠ 2 ∧ ∀ t ∈ ws[2]?,
    (IsNumeral t ∧ digitsValue t < 2 ^ 64) ∨ digitsValue (numeral t).2.1 = 0

theorem sizeTokens_eq_zero_iff {old : ℕ} {t : Bytes} {ts : List Bytes} :
    sizeTokens old (t :: ts) = 0 ↔ digitsValue (numeral t).2.1 = 0 := by
  rw [sizeTokens]
  split
  · rename_i h
    exact iff_of_true rfl (by rw [h]; rfl)
  · split
    · omega
    · split
      · omega
      · exact Iff.rfl

/-- What is read of a clear line: the header if there is one, else nothing that is accepted. -/
theorem parseUpload_of_clear {cmd : Bytes} (h : SizeIsClear (words cmd)) (garbage : ℕ) :
    (∃ name size, UploadHeader (words cmd) name size ∧ parseUpload cmd garbage = (name, size) ∧
      name ≠ []) ∨
    ((¬∃ name size, UploadHeader (words cmd) name size) ∧
      ((parseUpload cmd garbage).1 = [] ∨ (parseUpload cmd garbage).2 = 0)) := by
  rw [parseUpload_tokens]
  obtain ⟨hlen, hclear⟩ := h
  have hws : ∀ w ∈ words cmd, w ≠ [] := fun _ => words_ne_nil
  match hw : words cmd with
  | [] => exact .inr ⟨fun ⟨_, _, h⟩ => absurd h.named (by simp), .inl rfl⟩
  | [_] => exact .inr ⟨fun ⟨_, _, h⟩ => absurd h.named (by simp), .inl rfl⟩
  | [_, _] =>
    rw [hw] at hlen
    exact absurd rfl hlen
  | _ :: name :: t :: ts =>
    rw [hw] at hclear hws
    have hname : name ≠ [] := hws name (by simp)
    simp only [List.getD_cons_succ, List.getD_cons_zero, List.drop_succ_cons, List.drop_zero]
    rcases hclear t rfl with ⟨hnum, hlt⟩ | hzero
    · rw [sizeTokens_numeral hnum hlt]
      by_cases hpos : digitsValue t = 0
      · refine .inr ⟨?_, .inr hpos⟩
        rintro ⟨_, _, ⟨-, ⟨t', ht', -, hsize⟩, hpos', -⟩⟩
        cases ht'
        omega
      · exact .inl ⟨name, digitsValue t, ⟨rfl, ⟨t, rfl, hnum, rfl⟩, Nat.pos_of_ne_zero hpos, hlt⟩,
          rfl, hname⟩
    · refine .inr ⟨?_, .inr (sizeTokens_eq_zero_iff.mpr hzero)⟩
      rintro ⟨_, _, ⟨-, ⟨t', ht', hnum, hsize⟩, hpos, -⟩⟩
      cases ht'
      rw [numeral_of_isNumeral hnum] at hzero
      change digitsValue t = 0 at hzero
      omega

theorem parseUpload_of_unclear {cmd : Bytes} (h : ¬SizeIsClear (words cmd)) :
    (¬∃ name size, UploadHeader (words cmd) name size) ∧
      ¬((parseUpload cmd 1).1 = [] ∨ (parseUpload cmd 1).2 = 0) := by
  rw [parseUpload_tokens]
  have hws : ∀ w ∈ words cmd, w ≠ [] := fun _ => words_ne_nil
  match hw : words cmd with
  | [] => exact absurd ⟨by simp [hw], by simp [hw]⟩ h
  | [_] => exact absurd ⟨by simp [hw], by simp [hw]⟩ h
  | [_, name] =>
    rw [hw] at hws
    refine ⟨?_, ?_⟩
    · rintro ⟨_, _, ⟨-, ⟨t, ht, -⟩, -⟩⟩
      cases ht
    · rintro (hnil | hzero)
      · exact hws name (by simp) hnil
      · exact Nat.one_ne_zero hzero
  | _ :: name :: t :: ts =>
    rw [hw] at h hws
    obtain ⟨hnum, hzero⟩ : (IsNumeral t → 2 ^ 64 ≤ digitsValue t) ∧
        digitsValue (numeral t).2.1 ≠ 0 := by
      by_contra hnot
      refine h ⟨by simp, fun t' ht' => ?_⟩
      cases ht'
      rw [not_and_or, Classical.not_imp, not_le, not_not] at hnot
      exact hnot
    refine ⟨?_, ?_⟩
    · rintro ⟨_, _, ⟨-, ⟨t', ht', hnum', hsize⟩, -, hlt⟩⟩
      cases ht'
      have := hnum hnum'
      omega
    · rintro (hnil | hsize)
      · exact hws name (by simp) hnil
      · have hsize' : sizeTokens (1 % 2 ^ 64) (t :: ts) = 0 := hsize
        exact hzero (sizeTokens_eq_zero_iff.mp hsize')

theorem exists_upload {cmd : Bytes}
    (h : ¬((parseUpload cmd 1).1 = [] ∨ (parseUpload cmd 1).2 = 0)) :
    ∃ (s s' : World P × Socket) (x : Option Unit) (later : List (Event (Res (P := P))))
      (found : Option Bool), Prog.Runs (World.Serves World.Faultless) (serveUpload cmd) s
        (⟨.uninitialised, (1 : ℕ)⟩ :: ⟨.fileExists images, found⟩ :: later) x s' := by
  let s : World P × Socket := (⟨Reference.emptyFs, Reference.emptyDb P⟩, ⟨[], []⟩)
  obtain ⟨k, hk⟩ : ∃ k : Option Bool → Server P Unit,
      (handleImageUpload (parseUpload cmd 1).1 (parseUpload cmd 1).2 >>= fun result =>
        .call (.sslWrite (terminate result)) fun _ => .ret ()) = .call (.fileExists images) k :=
    ⟨_, rfl⟩
  obtain ⟨tr, x, s', hrun⟩ : ∃ tr x s', Prog.Runs (World.Serves World.Faultless)
      (.call (.fileExists images) k) s tr x s' := ⟨_, _, _, Server.runs _ s rfl⟩
  obtain ⟨found, s₁, later, hfound, hrun, -⟩ := hrun
  refine ⟨s, s', x, later, found, ?_⟩
  rw [serveUpload_eq]
  refine ⟨(1 : ℕ), s, _, ⟨.short 1, rfl, rfl⟩, ?_, rfl⟩
  beta_reduce
  rw [if_neg h, hk]
  exact ⟨found, s₁, later, hfound, hrun, rfl⟩

theorem not_readsHeader {E : Env (Res (P := P)) (World P × Socket)} {ws : List Bytes}
    {s s' : World P × Socket} {x : Option Unit} {garbage : ℕ} {found : Option Bool}
    {later : List (Event (Res (P := P)))} (h : ¬∃ name size, UploadHeader ws name size) :
    ¬ReadsHeader E ws s (⟨.uninitialised, garbage⟩ :: ⟨.fileExists images, found⟩ :: later) x
      s' := by
  rintro (⟨name, size, _, _, hheader, -, -⟩ | ⟨_, _, -, htrace, -, -, -⟩)
  · exact h ⟨name, size, hheader⟩
  · simp at htrace

/-- The size of an upload is read exactly, whatever the unwritten size starts with, if and only
if the line is clear. -/
theorem upload_header_read_exactly_iff (cmd : Bytes) :
    (∀ (allowed : Call P → Outcome → Prop) (s s' : World P × Socket)
      (tr : List (Event (Res (P := P)))) (x : Option Unit),
      Prog.Runs (World.Serves allowed) (serveUpload cmd) s tr x s' →
      ReadsHeader (World.Serves allowed) (words cmd) s tr x s') ↔ SizeIsClear (words cmd) := by
  constructor
  · intro h
    by_contra hunclear
    obtain ⟨hheader, hcall⟩ := parseUpload_of_unclear hunclear
    obtain ⟨s, s', x, later, found, hrun⟩ := exists_upload (P := P) hcall
    exact not_readsHeader hheader (h _ _ _ _ _ hrun)
  · intro h allowed s s' tr x hrun
    rw [serveUpload_eq] at hrun
    obtain ⟨garbage, s₁, later, ⟨w, -, hans⟩, hrun, rfl⟩ := hrun
    obtain rfl : s₁ = s := by
      cases hans
      rfl
    beta_reduce at hrun
    rcases parseUpload_of_clear h garbage with
      ⟨name, size, hheader, hparse, hname⟩ | ⟨hheader, hrefused⟩
    · have hsize : size ≠ 0 := by
        have := hheader.pos
        omega
      rw [hparse, if_neg (not_or.mpr ⟨hname, hsize⟩)] at hrun
      exact .upload name size garbage later hheader rfl hrun
    · rw [if_pos hrefused] at hrun
      obtain ⟨sent, s₂, tr₂, ⟨w₂, -, hans₂⟩, ⟨rfl, rfl, rfl⟩, rfl⟩ := hrun
      obtain ⟨world, k⟩ := s₁
      rw [World.answer_sslWrite] at hans₂
      cases hans₂
      refine .refusal garbage _ hheader rfl rfl rfl ?_
      dsimp only
      split <;> rfl

/-- The upload asks for almost all bytes that a size can count. -/
theorem negative_size_is_uploaded :
    (∀ garbage, parseUpload (ascii "UPLOAD a -1\n") garbage = (ascii "a", 2 ^ 64 - 1)) ∧
      ∃ (s s' : World .reference × Socket) (x : Option Unit)
        (tr : List (Event (Res (P := .reference)))),
        Prog.Runs (World.Serves World.Faultless) (serveUpload (ascii "UPLOAD a -1\n")) s tr x s' ∧
        ¬ReadsHeader (World.Serves World.Faultless) (words (ascii "UPLOAD a -1\n")) s tr x s' := by
  have hwords : words (ascii "UPLOAD a -1\n") = [ascii "UPLOAD", ascii "a", ascii "-1"] := by decide
  have hheader : ¬∃ name size, UploadHeader (words (ascii "UPLOAD a -1\n")) name size := by
    rw [hwords]
    rintro ⟨_, _, ⟨-, ⟨t, ht, hnum, -⟩, -⟩⟩
    cases ht
    exact absurd hnum (by decide)
  obtain ⟨s, s', x, later, found, hrun⟩ :=
    exists_upload (P := .reference)
      (by decide : ¬((parseUpload (ascii "UPLOAD a -1\n") 1).1 = [] ∨ _))
  refine ⟨fun garbage => ?_, s, s', x, _, hrun, not_readsHeader hheader⟩
  rw [parseUpload_tokens, hwords]
  rfl

end CctvServer
