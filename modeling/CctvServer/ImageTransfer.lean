import CctvServer.UploadOutcome

namespace CctvServer

open ImageHandler

variable {P : Platform}

/-- A client that reads eight bytes, takes them for a size and reads as many bytes; what
the connection holds after them comes second. -/
def receiveImage (b : Bytes) : Option (Bytes × Bytes) :=
  let n := (ntohll (ofMemory (b.take 8))).toNat
  if b.length < 8 + n then none else some ((b.drop 8).take n, (b.drop 8).drop n)

@[simp] theorem header_length (n : ℕ) : (header n).length = 8 := memory_length _

theorem receiveImage_header {content : Bytes} (h : content.length < 2 ^ 64) (rest : Bytes) :
    receiveImage (header content.length ++ content ++ rest) = some (content, rest) := by
  have htake : (header content.length ++ content ++ rest).take 8 = header content.length := by
    rw [List.append_assoc]
    exact List.take_left' (header_length _)
  have hdrop : (header content.length ++ content ++ rest).drop 8 = content ++ rest := by
    rw [List.append_assoc]
    exact List.drop_left' (header_length _)
  have hsize : (ntohll (ofMemory (header content.length))).toNat = content.length := by
    rw [header, ofMemory_memory, ntohll_htonll, BitVec.toNat_ofNat, Nat.mod_eq_of_lt h]
  rw [receiveImage, htake, hdrop, hsize, if_neg (by simp), List.take_left, List.drop_left]

/-- An image below 2^62 bytes begins with a byte that no reply begins with. -/
theorem header_not_reply {content : Bytes} (h : content.length < 2 ^ 62) :
    ¬ header content.length ++ content <+: notFound ∧
      ¬ notFound <+: header content.length ++ content := by
  obtain ⟨c, t, hc, hlt⟩ := bigEndian_head h
  have hhead : header content.length = c :: t := by
    rw [header, memory_htonll (h.trans (by decide)), hc]
  have hreply : notFound = 123 :: notFound.tail := by decide
  have hne : c ≠ 123 := by
    rintro rfl
    exact absurd hlt (by decide)
  rw [hhead, hreply, List.cons_append]
  constructor
  · intro hp
    exact hne (List.cons_prefix_cons.mp hp).1
  · intro hp
    exact hne (List.cons_prefix_cons.mp hp).1.symm

structure RoundTrip (content sent : Bytes) : Prop where
  sent_eq : sent = bigEndian content.length ++ content
  received : receiveImage sent = some (content, [])
  not_reply : ¬ sent <+: notFound ∧ ¬ notFound <+: sent

theorem roundTrip_header {content : Bytes} (h : content.length < 2 ^ 62) :
    RoundTrip content (header content.length ++ content) where
  sent_eq := by rw [header, memory_htonll (h.trans (by decide))]
  received := by
    have := receiveImage_header (h.trans (by decide)) []
    rwa [List.append_nil] at this
  not_reply := header_not_reply h

/-- The path leads to file `ino` with this content, and its names are not too long. -/
structure Readable (fs : FileSystem) (path : Bytes) (ino : ℕ) (content : Bytes) : Prop where
  lookup : fs.lookup path = some (.file ino)
  content : fs.content ino = content
  short : fs.tooLong path = false

/-- Other clients may do anything but change this file. -/
structure KeepsFile (path : Bytes) (ino : ℕ) (w w' : World P) : Prop where
  lookup : w'.fs.lookup path = w.fs.lookup path
  content : w'.fs.content ino = w.fs.content ino
  limits : w'.fs.limits = w.fs.limits

theorem KeepsFile.refl (path : Bytes) (ino : ℕ) (w : World P) : KeepsFile path ino w w :=
  ⟨rfl, rfl, rfl⟩

theorem Readable.keeps {w w' : World P} {path content : Bytes} {ino : ℕ}
    (h : Readable w.fs path ino content) (hk : KeepsFile path ino w w') :
    Readable w'.fs path ino content :=
  ⟨hk.lookup.trans h.lookup, hk.content.trans h.content,
    (FileSystem.tooLong_congr hk.limits path).trans h.short⟩

theorem Readable.partial {fs : FileSystem} {path content : Bytes} {ino : ℕ}
    (h : Readable fs path ino content) :
    Partial fs path content (some ino) content.length where
  named e he := by
    rw [h.lookup] at he
    exact ⟨ino, (Option.some.inj he).symm, rfl⟩
  content ino' hino' := by
    cases hino'
    rw [h.content, List.take_length]
  le := le_rfl

theorem download_found {path : Bytes} {limit : ℕ} {p : DownloadPhase} {o : Call P} {r : Res o}
    (hp : p ≠ .missing ∧ p ≠ .refused) (ha : (downloadMonitor P path limit).admits p o)
    (hr : ∀ path', (⟨o, r⟩ : Event (Res (P := P))) ≠ ⟨.openRead path', none⟩) :
    (downloadMonitor P path limit).next p o r ≠ .missing ∧
      (downloadMonitor P path limit).next p o r ≠ .refused := by
  cases p with
  | start =>
    cases o with
    | openRead path' =>
      match r with
      | none => exact absurd rfl (hr path')
      | some (.dir n) => exact ⟨nofun, nofun⟩
      | some (.file ino) => exact ⟨nofun, nofun⟩
    | _ => exact ha.elim
  | missing => exact absurd rfl hp.1
  | refused => exact absurd rfl hp.2
  | opened ino =>
    cases o with
    | seekEnd e => cases r <;> exact ⟨nofun, nofun⟩
    | _ => exact ha.elim
  | sized ino n =>
    cases o with
    | seekBeg e => exact ⟨nofun, nofun⟩
    | _ => exact ha.elim
  | measured ino n =>
    cases o with
    | sslWrite b => exact ⟨nofun, nofun⟩
    | _ => exact ha.elim
  | sending ino n pos =>
    cases o with
    | read e pos' n' =>
      match r with
      | none => exact ⟨nofun, nofun⟩
      | some [] => exact ⟨nofun, nofun⟩
      | some (c :: b) => exact ⟨nofun, nofun⟩
    | _ => exact ha.elim
  | chunk ino n pos b =>
    cases o with
    | sslWrite b' =>
      change (if _ then _ else _) ≠ _ ∧ (if _ then _ else _) ≠ _
      split
      · exact ⟨nofun, nofun⟩
      · exact ⟨nofun, nofun⟩
    | _ => exact ha.elim
  | finished n m => exact ha.elim

theorem runs_handleGetImage {fuel : ℕ} {path content : Bytes} {ino : ℕ} {w : World P} {k : Socket}
    {tr : List (Event (Res (P := P)))} {x : Option (Option Unit)} {s' : World P × Socket}
    (hread : Readable w.fs path ino content) (hfuel : content.length < 4096 * fuel)
    (h : Prog.Runs (World.Amid (KeepsFile path ino) (World.Serves World.Faultless))
      (handleGetImage fuel path) (w, k) tr x s') :
    x = some (some ()) ∧ s'.2.out = k.out ++ (header content.length ++ content) := by
  obtain ⟨⟨-, hphase, hrec⟩, hret, hthrow⟩ := Prog.Safe.of_runs (s := (w, k))
    (I := fun s p => Readable s.1.fs path ino content ∧ (p ≠ .missing ∧ p ≠ .refused) ∧
      Receiving content k.out (some ino) content.length (· = content.length) s.2.out p)
    (safe_handleGetImage hfuel) ⟨hread, ⟨nofun, nofun⟩, rfl⟩
    (fun s p o r s' hI ha hE => by
      obtain ⟨hread, hphase, hrec⟩ := hI
      obtain ⟨w', hkeep, hE⟩ := hE
      have hread' := hread.keeps hkeep
      obtain ⟨hw, hexp, hnext⟩ := hrec.step hread'.partial ha hE (fun _ => id) fun _ _ => rfl
      refine ⟨hexp, hw ▸ hread', download_found hphase ha fun path' he => ?_, hnext⟩
      cases he
      obtain ⟨ω, hω, hans⟩ := hE
      have hok : ω.failed = false := hω
      have hpath : path' = path := by
        cases p with
        | start => exact ha
        | _ => exact ha.elim
      simp [World.answer, hok, hpath, hread'.short, hread'.lookup] at hans) h
  cases x with
  | none => exact (hthrow rfl).elim
  | some x =>
    obtain ⟨rfl, hend | ⟨n, m, hend⟩⟩ := hret x rfl
    · exact absurd hend hphase.2
    · rw [hend] at hrec
      obtain ⟨hout, rfl, hnm, hmk⟩ := hrec
      refine ⟨rfl, ?_⟩
      rw [hout, le_antisymm hmk hnm, List.take_length, List.append_assoc]

/-- A download of a file that stays as it is gives a client the content, and so does a
download after a successful upload. -/
theorem image_round_trip :
    (∀ {fuel ino : ℕ} {path content : Bytes} {w : World P} {k : Socket}
      {tr : List (Event (Res (P := P)))} {x : Option (Option Unit)} {s' : World P × Socket},
      Readable w.fs path ino content → content.length < 2 ^ 62 → content.length < 4096 * fuel →
      Prog.Runs (World.Amid (KeepsFile path ino) (World.Serves World.Faultless))
        (handleGetImage fuel path) (w, k) tr x s' →
      x = some (some ()) ∧ ∃ sent, s'.2.out = k.out ++ sent ∧ RoundTrip content sent) ∧
    ∀ {fuel n : ℕ} {filename : Bytes} {s s₁ s' : World P × Socket} {k : Socket}
      {tr tr' : List (Event (Res (P := P)))} {x : Option (Option Unit)},
      Prog.Runs (World.Serves World.Uploading) (handleImageUpload filename n) s tr
        (some (uploadSuccess (fullPath filename))) s₁ → n < 2 ^ 62 → n < 4096 * fuel →
      Prog.Runs (World.Serves World.Faultless) (handleGetImage fuel (fullPath filename))
        (s₁.1, k) tr' x s' →
      x = some (some ()) ∧ ∃ sent, s'.2.out = k.out ++ sent ∧
        RoundTrip (s.2.inp.take n) sent := by
  constructor
  · intro fuel ino path content w k tr x s' hread hlen hfuel hrun
    obtain ⟨rfl, hout⟩ := runs_handleGetImage hread hfuel hrun
    exact ⟨rfl, _, hout, roundTrip_header hlen⟩
  · intro fuel n filename s s₁ s' k tr tr' x hup hn hfuel hrun
    obtain ⟨ino, hread⟩ : ∃ ino, Readable s₁.1.fs (fullPath filename) ino (s.2.inp.take n) := by
      generalize hx : some (uploadSuccess (fullPath filename)) = y at hup
      cases runs_handleImageUpload (fun _ _ h => h) hup with
      | thrown => cases hx
      | refused code message =>
        exact absurd (Option.some.inj hx).symm (uploadError_ne_success filename code message)
      | stored ino _ _ _ hsmooth _ hlookup hshort hcontent hconsumed =>
        exact ⟨ino, hlookup, by rw [hcontent, hsmooth.take_inp hconsumed], hshort⟩
    have hle : (s.2.inp.take n).length ≤ n := List.length_take_le _ _
    obtain ⟨rfl, hout⟩ := runs_handleGetImage hread (lt_of_le_of_lt hle hfuel)
      (hrun.mono fun _ t _ _ hE => ⟨t.1, KeepsFile.refl _ _ _, hE⟩)
    exact ⟨rfl, _, hout, roundTrip_header (lt_of_le_of_lt hle hn)⟩

/-- The image that was uploaded in parts is downloaded twice. -/
theorem parts_round_trip :
    ∃ (w : World Platform.reference) (s' : World Platform.reference × Socket),
      Readable w.fs (fullPath (ascii "a")) 1 (ascii "abcdef") ∧
      (∃ sent, s'.2.out = [] ++ sent ∧ RoundTrip ((ascii "abcdefgh").take 6) sent) ∧
      s'.2.out = header 6 ++ ascii "abcdef" ∧
      RoundTrip (ascii "abcdef") (header 6 ++ ascii "abcdef") ∧
      ∃ tr, Prog.Runs (World.Serves World.Faultless) (handleGetImage 1 (fullPath (ascii "a")))
        (w, ⟨[], []⟩) tr (some (some ())) s' := by
  let w := uploadInParts.2.2.1
  have hrun := Server.runs (handleGetImage 1 (fullPath (ascii "a"))) (w, ⟨[], []⟩)
    (x := some (some ())) (by decide)
  have hread : Readable w.fs (fullPath (ascii "a")) 1 (ascii "abcdef") :=
    ⟨by decide, by decide, by decide⟩
  obtain ⟨hsteady, hfresh⟩ := image_round_trip (P := .reference)
  obtain ⟨-, hfirst⟩ := hfresh uploadInParts_runs (by decide) (by decide) hrun
  obtain ⟨-, sent', hout', htrip'⟩ := hsteady hread (by decide) (by decide)
    (hrun.mono fun _ t _ _ hE => ⟨t.1, KeepsFile.refl _ _ _, hE⟩)
  have hsent : sent' = header 6 ++ ascii "abcdef" := by
    rw [htrip'.sent_eq]
    decide
  rw [hsent] at hout' htrip'
  exact ⟨w, _, hread, hfirst, hout', htrip', _, hrun⟩

end CctvServer
