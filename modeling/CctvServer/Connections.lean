import CctvServer.Custody
import CctvServer.Ownership
import CctvServer.Reference

namespace CctvServer

variable {P : Platform}

namespace Threads

def Agree (s s' : Process P) : Handle → Prop
  | .fd n => (s'.peer n).certified = (s.peer n).certified
  | .ssl n => s'.fdOf n = s.fdOf n
  | .args n => s'.args n = s.args n

theorem Hold.Sound.frame {s s' : Process P} {h : Hold} (hs : h.Sound s) (hdone : s.done ⊆ s'.done)
    (ha : ∀ r ∈ h.owned, Agree s s' r) : h.Sound s' where
  known := List.Subset.trans hs.known hdone
  ssl := hs.ssl
  fd := hs.fd
  route ssl fd fd' hl hf := by
    have hsame : s'.fdOf ssl = s.fdOf ssl := ha _ (hs.ssl ssl fd hl)
    exact hs.route ssl fd fd' hl (hsame ▸ hf)
  bare ssl hm hl := by
    have hsame : s'.fdOf ssl = s.fdOf ssl := ha _ hm
    exact hsame.trans (hs.bare ssl hm hl)
  shaken hsh := by
    obtain ⟨hreq, ssl, fd, hl, hf, hc⟩ := hs.shaken hsh
    have hssl : s'.fdOf ssl = s.fdOf ssl := ha _ (hs.ssl ssl fd hl)
    have hfd : (s'.peer fd).certified = (s.peer fd).certified := ha _ (hs.fd ssl fd hl)
    exact ⟨List.Subset.trans hreq hdone, ssl, fd, hl, hssl.trans hf, hfd.trans hc⟩
  packed args fd ssl hp := by
    obtain ⟨hm, hargs⟩ := hs.packed args fd ssl hp
    have hsame : s'.args args = s.args args := ha _ hm
    exact ⟨hm, hsame.trans hargs⟩

theorem Hold.Sound.link {s s' : Process P} {h : Hold} {ssl fd : ℕ} (hs : h.Sound s)
    (hssl : .ssl ssl ∈ h.owned) (hfd : .fd fd ∈ h.owned) (hdone : s'.done = s.done)
    (hargs : s'.args = s.args) (hself : ∀ y, s'.fdOf ssl = some y → y = fd)
    (hother : ∀ x, x ≠ ssl → .ssl x ∈ h.owned → s'.fdOf x = none) :
    ({ h with link := some (ssl, fd), shaken := false } : Hold).Sound s' where
  known := hdone ▸ hs.known
  ssl x y hl := by
    cases hl
    exact hssl
  fd x y hl := by
    cases hl
    exact hfd
  route x y z hl hz := by
    cases hl
    exact hself z hz
  bare x hx hl := hother x (fun hxs => hl fd (hxs ▸ rfl)) hx
  shaken := nofun
  packed := hargs ▸ hs.packed

theorem Hold.sound_empty {s : Process P} {known : List Startup} (h : known ⊆ s.done) :
    (Hold.empty known).Sound s :=
  ⟨h, nofun, nofun, nofun, nofun, nofun, nofun⟩

/-- Every live handle belongs to one thread, and each finds the state as it takes it to be. -/
structure Kept (s : Process P) (g : Option ℕ → Phase) : Prop where
  owned : Owned s.live fun i => ((g i).hold s).owned
  sound : ∀ i, ((g i).hold s).Sound s
  waiting : ∀ n, s.started.length ≤ n → g (some n) = .waiting n
  begun : ∀ i n, g i = .waiting n → i = some n

theorem Kept.move {s s' : Process P} {g : Option ℕ → Phase} {i : Option ℕ} {h : Hold}
    (hk : Kept s g) (hi : ∀ n, i = some n → n < s.started.length)
    (hstarted : s'.started = s.started) (hdone : s.done ⊆ s'.done)
    (ha : ∀ r ∈ s.live, r ∉ ((g i).hold s).owned → Agree s s' r)
    (howned : Owned s'.live (Function.update (fun j => ((g j).hold s).owned) i h.owned))
    (hsound : h.Sound s') : Kept s' (Function.update g i (.active h)) := by
  have hother : ∀ j, j ≠ i → ∀ r ∈ ((g j).hold s).owned, Agree s s' r := fun j hji r hr =>
    ha r (hk.owned.subset j hr) fun hri => hji (hk.owned.unique j i r hr hri)
  have hhold : ∀ j, j ≠ i → (g j).hold s' = (g j).hold s := by
    intro j hji
    have hsame := hother j hji
    cases hg : g j with
    | active h => rfl
    | waiting n =>
      simp only [hg, Phase.hold, hstarted] at hsame ⊢
      cases hn : s.started[n]? with
      | none => rfl
      | some args =>
        have hargs : s'.args args = s.args args := by
          rw [hn] at hsame
          exact hsame (.args args) (Finset.mem_insert_self _ _)
        simp only [hargs]
  refine ⟨howned.congr fun j => ?_, fun j => ?_, fun n hn => ?_, fun j n hj => ?_⟩
  · by_cases hji : j = i
    · subst hji
      simp [Phase.hold]
    · simp [hji, hhold j hji]
  · by_cases hji : j = i
    · subst hji
      simpa [Phase.hold] using hsound
    · rw [Function.update_of_ne hji, hhold j hji]
      exact (hk.sound j).frame hdone (hother j hji)
  · rw [hstarted] at hn
    have hne : some n ≠ i := fun hni => absurd (hi n hni.symm) (by omega)
    rw [Function.update_of_ne hne]
    exact hk.waiting n hn
  · by_cases hji : j = i
    · subst hji
      simp at hj
    · rw [Function.update_of_ne hji] at hj
      exact hk.begun j n hj

/-- A new thread is handed all that its creator holds. -/
theorem Kept.hand {s : Process P} {g : Option ℕ → Phase} {i : Option ℕ} {known : List Startup}
    {args fd ssl : ℕ} (hk : Kept s g) (hi : g i = .active (.handed known args fd ssl)) :
    Kept { s with started := s.started ++ [args] }
      (Function.update g i (.active (.empty known))) := by
  have hw := hk.waiting s.started.length le_rfl
  have hne : i ≠ some s.started.length := by
    rintro rfl
    rw [hw] at hi
    cases hi
  have hargs : s.args args = (fd, ssl) := by
    have hs := hk.sound i
    rw [hi] at hs
    exact (hs.packed args fd ssl rfl).2
  have hthread : (g (some s.started.length)).hold { s with started := s.started ++ [args] } =
      .handed [] args fd ssl := by
    simp [hw, Phase.hold, hargs]
  have hother : ∀ j, j ≠ i → j ≠ some s.started.length →
      (g j).hold { s with started := s.started ++ [args] } = (g j).hold s := by
    intro j hji hj
    cases hg : g j with
    | active h => rfl
    | waiting n =>
      have hn : s.started.length ≠ n := by
        rintro rfl
        exact hj (hk.begun j _ hg)
      have hsame : (s.started ++ [args])[n]? = s.started[n]? := by
        rcases Nat.lt_or_gt_of_ne hn with hn | hn
        · rw [List.getElem?_eq_none (by simp; omega), List.getElem?_eq_none (by omega)]
        · exact List.getElem?_append_left hn
      simp only [Phase.hold, hsame]
  refine ⟨?_, fun j => ?_, fun n hn => ?_, fun j n hj => ?_⟩
  · refine hk.owned.give hne ?_ ?_ ?_ fun k hki hkn => ?_
    · simp [hw, Phase.hold, Hold.empty]
    · simp [Phase.hold, Hold.empty]
    · rw [Function.update_of_ne hne.symm, hthread, hi]
      rfl
    · rw [Function.update_of_ne hki, hother k hki hkn]
  · have hframe : ∀ h : Hold, h.Sound s → h.Sound { s with started := s.started ++ [args] } :=
      fun h hs => hs.frame (List.Subset.refl _) fun r _ => by cases r <;> rfl
    have hs := hk.sound i
    rw [hi] at hs
    by_cases hji : j = i
    · subst hji
      rw [Function.update_self]
      exact Hold.sound_empty hs.known
    · rw [Function.update_of_ne hji]
      by_cases hjn : j = some s.started.length
      · subst hjn
        rw [hthread]
        have hs := hframe _ hs
        exact ⟨nofun, hs.ssl, hs.fd, hs.route, hs.bare, hs.shaken, hs.packed⟩
      · rw [hother j hji hjn]
        exact hframe _ (hk.sound j)
  · simp only [List.length_append, List.length_singleton] at hn
    have hni : some n ≠ i := by
      rintro rfl
      rw [hk.waiting n (by omega)] at hi
      cases hi
    rw [Function.update_of_ne hni]
    exact hk.waiting n (by omega)
  · by_cases hji : j = i
    · subst hji
      simp at hj
    · rw [Function.update_of_ne hji] at hj
      exact hk.begun j n hj

theorem Kept.begin {s : Process P} {g : Option ℕ → Phase} {i : Option ℕ} {n : ℕ} (hk : Kept s g)
    (hi : g i = .waiting n) (hn : n < s.started.length) :
    Kept s (Function.update g i (.active (.handed [] (s.started.getD n 0)
      (s.args (s.started.getD n 0)).1 (s.args (s.started.getD n 0)).2))) := by
  have hhold : (g i).hold s = .handed [] (s.started.getD n 0) (s.args (s.started.getD n 0)).1
      (s.args (s.started.getD n 0)).2 := by
    simp [hi, Phase.hold, List.getD_eq_getElem?_getD, List.getElem?_eq_getElem hn]
  rw [← hhold]
  refine hk.move (fun m hm => ?_) rfl (List.Subset.refl _) (fun r _ _ => by cases r <;> rfl) ?_
    (hk.sound i)
  · have hin := hk.begun i n hi
    rw [hm] at hin
    cases hin
    exact hn
  · rw [Function.update_eq_self]
    exact hk.owned

section

variable {s s' : Process P} {g : Option ℕ → Phase} {i : Option ℕ} {h h' : Hold}

theorem Kept.sound_active (hk : Kept s g) (hi : g i = .active h) : h.Sound s := by
  have hs := hk.sound i
  rwa [hi] at hs

theorem Kept.mem_live (hk : Kept s g) (hi : g i = .active h) {r : Handle} (hr : r ∈ h.owned) :
    r ∈ s.live := by
  have hs := hk.owned.subset i
  rw [hi] at hs
  exact hs hr

theorem Kept.running (hk : Kept s g) (hi : g i = .active h) :
    ∀ n, i = some n → n < s.started.length := by
  rintro n rfl
  by_contra hn
  rw [hk.waiting n (by omega)] at hi
  cases hi

theorem Kept.keep (hk : Kept s g) (hi : g i = .active h) (hlive : s'.live = s.live)
    (hstarted : s'.started = s.started) (hdone : s.done ⊆ s'.done)
    (ha : ∀ r ∈ s.live, r ∉ h.owned → Agree s s' r) (hsound : h'.Sound s')
    (howned : h'.owned = h.owned) : Kept s' (Function.update g i (.active h')) := by
  have hown : ((g i).hold s).owned = h.owned := by rw [hi]; rfl
  refine hk.move (hk.running hi) hstarted hdone (by rwa [hown]) ?_ hsound
  rw [hlive, howned, ← hown]
  exact hk.owned.congr fun j => by rw [Function.update_eq_self]

theorem Kept.stay (hk : Kept s g) (hi : g i = .active h) (hsound : h'.Sound s)
    (howned : h'.owned = h.owned) : Kept s (Function.update g i (.active h')) :=
  hk.keep hi rfl rfl (List.Subset.refl _) (fun r _ _ => by cases r <;> rfl) hsound howned

theorem Kept.gain (hk : Kept s g) (hi : g i = .active h) {r : Handle} (hr : r ∉ s.live)
    (hlive : s'.live = insert r s.live) (hstarted : s'.started = s.started)
    (hdone : s'.done = s.done) (ha : ∀ x, x ≠ r → Agree s s' x)
    (hnew : ∀ ssl, r = .ssl ssl → s'.fdOf ssl = none)
    (hsound : ({ h with owned := insert r h.owned } : Hold).Sound s' → h'.Sound s')
    (howned : h'.owned = insert r h.owned) : Kept s' (Function.update g i (.active h')) := by
  have hs := hk.sound_active hi
  have hown : ((g i).hold s).owned = h.owned := by rw [hi]; rfl
  have hsub : s.done ⊆ s'.done := fun x hx => hdone ▸ hx
  have hlives : ∀ x ∈ s.live, Agree s s' x := fun x hx => ha x fun hxr => hr (hxr ▸ hx)
  have hf := hs.frame hsub fun x hx => hlives x (hk.mem_live hi hx)
  refine hk.move (hk.running hi) hstarted hsub (fun x hx _ => hlives x hx) ?_ (hsound
    ⟨hf.known, fun ssl fd hl => Finset.mem_insert_of_mem (hf.ssl ssl fd hl),
      fun ssl fd hl => Finset.mem_insert_of_mem (hf.fd ssl fd hl), hf.route, fun ssl hm hl => ?_,
      hf.shaken, fun args fd ssl hp => ?_⟩)
  · rw [hlive, howned, ← hown]
    exact hk.owned.acquire hr (by rw [Function.update_self]) fun j hj => by
      rw [Function.update_of_ne hj]
  · rcases Finset.mem_insert.mp hm with hx | hm
    · exact hnew ssl hx.symm
    · exact hf.bare ssl hm hl
  · exact ⟨Finset.mem_insert_of_mem (hf.packed args fd ssl hp).1, (hf.packed args fd ssl hp).2⟩

theorem Kept.drop (hk : Kept s g) (hi : g i = .active h) {r : Handle} (hr : r ∈ h.owned)
    (hsound : h'.Sound s) (howned : h'.owned = h.owned.erase r) :
    Kept { s with live := s.live.erase r } (Function.update g i (.active h')) := by
  have hown : ((g i).hold s).owned = h.owned := by rw [hi]; rfl
  refine hk.move (hk.running hi) rfl (List.Subset.refl _)
    (fun x _ _ => by cases x <;> rfl) ?_
    (hsound.frame (List.Subset.refl _) fun x _ => by cases x <;> rfl)
  rw [howned]
  rw [← hown] at hr ⊢
  exact hk.owned.release hr (by rw [Function.update_self]) fun j hj => by
    rw [Function.update_of_ne hj]

end

/-- What a step of a running thread leaves behind. -/
theorem Kept.step {s s' : Process P} {g : Option ℕ → Phase} {i : Option ℕ} {h : Hold}
    {o : HostCall P} {r : HostRes o} {w : Outcome} (hk : Kept s g) (hi : g i = .active h)
    (ha : h.Admits o) (he : Process.answer w o (s, ()) = (r, s', ())) :
    Kept s' (Function.update g i (.active (h.next o r))) := by
  have hs := hk.sound_active hi
  cases o with
  | startup x =>
    simp only [Process.answer] at he
    split at he <;> cases he
    · exact hk.stay hi hs rfl
    · have hf : h.Sound { s with done := x :: s.done } :=
        hs.frame (List.subset_cons_self _ _) fun r _ => by cases r <;> rfl
      exact hk.keep hi rfl rfl (List.subset_cons_self _ _) (fun r _ _ => by cases r <;> rfl)
        ⟨List.cons_subset_cons x hs.known, hf.ssl, hf.fd, hf.route, hf.bare, hf.shaken,
          hf.packed⟩ rfl
  | accept =>
    simp only [Process.answer] at he
    split at he <;> cases he
    · exact hk.gain hi (s.pick_fresh (h := .fd) (fun _ => rfl) w.number) rfl rfl rfl
        (fun x hx => by cases x <;> grind [Agree]) (by simp) id rfl
    · exact hk.stay hi hs rfl
  | sslNew =>
    simp only [Process.answer] at he
    split at he <;> cases he
    · exact hk.stay hi hs rfl
    · refine hk.gain hi (s.pick_fresh (h := .ssl) (fun _ => rfl) w.number) rfl rfl rfl
        (fun x hx => by cases x <;> grind [Agree]) (fun ssl hssl => ?_) id rfl
      cases hssl
      exact Function.update_self _ _ _
  | sslSetFd ssl fd =>
    obtain ⟨hssl, hfd, hnone⟩ := ha
    simp only [Process.answer] at he
    have hbare : s.fdOf ssl = none := hs.bare ssl hssl (by simp [hnone])
    have hother : ∀ x, .ssl x ∈ h.owned → s.fdOf x = none := fun x hx =>
      hs.bare x hx (by simp [hnone])
    obtain ⟨-, rfl, -⟩ := Prod.mk.inj he
    split
    · refine hk.stay hi (hs.link hssl hfd rfl rfl (fun y hy => ?_) fun x _ hx => hother x hx) rfl
      rw [hbare] at hy
      cases hy
    · refine hk.keep hi rfl rfl (List.Subset.refl _) (fun r _ hr => ?_)
        (hs.link hssl hfd rfl rfl (fun y hy => ?_) fun x hne hx => ?_) rfl
      · cases r with
        | ssl x =>
          have hne : x ≠ ssl := fun hx => hr (hx ▸ hssl)
          simp [Agree, hne]
        | fd x => rfl
        | args x => rfl
      · simpa using hy.symm
      · simpa [hne] using hother x hx
  | sslAccept ssl =>
    obtain ⟨hreq, fd, hl⟩ := ha
    cases he
    refine hk.stay hi ⟨hs.known, hs.ssl, hs.fd, hs.route, hs.bare, fun hshaken => ?_, hs.packed⟩ rfl
    simp only [Hold.next, Process.welcomes, Bool.and_eq_true] at hshaken
    cases hf : s.fdOf ssl with
    | none => simp [hf] at hshaken
    | some fd' =>
      obtain rfl := hs.route ssl fd fd' hl hf
      have hdone : Startup.required ⊆ s.done := List.Subset.trans hreq hs.known
      have hverify : Startup.setVerify ∈ s.done := hdone (by decide)
      refine ⟨hdone, ssl, fd', hl, hf, ?_⟩
      simpa [hf, hverify] using hshaken.2
  | newArgs fd ssl =>
    cases he
    refine hk.gain hi (s.pick_fresh (h := .args) (fun _ => rfl) w.number) rfl rfl rfl
      (fun x hx => by cases x <;> grind [Agree]) (by simp) (fun hsound => ?_) rfl
    refine ⟨hsound.known, hsound.ssl, hsound.fd, hsound.route, hsound.bare, hsound.shaken,
      fun args fd' ssl' hp => ?_⟩
    cases hp
    exact ⟨Finset.mem_insert_self _ _, Function.update_self _ _ _⟩
  | pthreadCreate args =>
    obtain ⟨fd, ssl, hh⟩ := ha
    simp only [Process.answer] at he
    split at he <;> cases he
    · exact hk.stay hi hs rfl
    · exact hk.hand (hh ▸ hi)
  | threadArgs n => exact ha.elim
  | deleteArgs args =>
    cases he
    refine hk.drop hi ha ⟨hs.known, fun ssl fd hl => ?_, fun ssl fd hl => ?_, hs.route,
      fun ssl hm => hs.bare ssl (Finset.mem_of_mem_erase hm), hs.shaken, by simp [Hold.next]⟩ rfl
    · exact Finset.mem_erase.mpr ⟨by simp, hs.ssl ssl fd hl⟩
    · exact Finset.mem_erase.mpr ⟨by simp, hs.fd ssl fd hl⟩
  | call ssl c =>
    obtain ⟨fd, hl, hshaken⟩ := ha
    obtain ⟨-, ssl', fd', hl', hf, -⟩ := hs.shaken hshaken
    obtain ⟨rfl, rfl⟩ : ssl = ssl' ∧ fd = fd' := by simpa [hl] using hl'
    simp only [Process.answer, hf] at he
    cases he
    have hagree : ∀ r, Agree s { s with
        world := (World.answer w c (s.world, (s.peer fd).socket)).2.1
        peer := Function.update s.peer fd { s.peer fd with
          socket := (World.answer w c (s.world, (s.peer fd).socket)).2.2 } } r := by
      intro r
      cases r with
      | fd n =>
        by_cases hn : n = fd
        · subst hn
          simp [Agree]
        · simp [Agree, hn]
      | ssl n => rfl
      | args n => rfl
    exact hk.keep hi rfl rfl (List.Subset.refl _) (fun r _ _ => hagree r)
      (hs.frame (List.Subset.refl _) fun r _ => hagree r) rfl
  | sslShutdown ssl =>
    cases he
    exact hk.stay hi hs rfl
  | sslFree ssl =>
    obtain ⟨fd, hl⟩ := ha
    cases he
    refine hk.drop hi (hs.ssl ssl fd hl) ⟨hs.known, by simp [Hold.next], by simp [Hold.next],
      by simp [Hold.next], fun x hx _ => ?_, by simp [Hold.next], fun args y z hp => ?_⟩ rfl
    · obtain ⟨hne, hx⟩ := Finset.mem_erase.mp hx
      refine hs.bare x hx fun y hy => hne ?_
      rw [hl] at hy
      cases hy
      rfl
    · exact ⟨Finset.mem_erase.mpr ⟨by simp, (hs.packed args y z hp).1⟩, (hs.packed args y z hp).2⟩
  | close fd =>
    obtain ⟨hfd, hnone⟩ := ha
    cases he
    refine hk.drop hi hfd ⟨hs.known, ?_, ?_, ?_, fun x hx => hs.bare x (Finset.mem_of_mem_erase hx),
      hs.shaken, fun args y z hp => ?_⟩ rfl
    · simp [Hold.next, hnone]
    · simp [Hold.next, hnone]
    · simp [Hold.next, hnone]
    · exact ⟨Finset.mem_erase.mpr ⟨by simp, (hs.packed args y z hp).1⟩, (hs.packed args y z hp).2⟩

theorem boot_kept (world : World P) (coming : List Peer) :
    Kept (Process.boot world coming) Phase.initial := by
  have hhold : ∀ i, (Phase.initial i).hold (Process.boot world coming) = .empty [] := by
    intro i
    cases i <;> rfl
  refine ⟨⟨fun i => ?_, nofun, fun i j r hr => ?_⟩, fun i => ?_, fun _ _ => rfl, fun i n hn => ?_⟩
  · rw [hhold]
    exact Finset.empty_subset _
  · rw [hhold] at hr
    exact absurd hr (Finset.notMem_empty r)
  · rw [hhold]
    exact Hold.sound_empty (List.nil_subset _)
  · cases i with
    | none => cases hn
    | some m =>
      cases hn
      rfl

variable {allowed : Call P → Outcome → Prop} {fuel : ℕ} {world : World P} {coming : List Peer}
  {c : Threads P}

abbrev phases (c : Threads P) : Option ℕ → Phase := c.ghosts custody Phase.initial

theorem kept_of_reach
    (hr : Config.Reach (Process.Runs allowed) Ready (boot fuel world coming) c) :
    (∀ i, Keeps (c.prog i) (c.phases i)) ∧ Kept c.shared c.phases := by
  refine hr.monitored custody Phase.initial (I := fun c g => Kept c.shared g) rfl
    (fun i => ?_) (boot_kept world coming) ?_
  · cases i with
    | none => exact safe_main fuel
    | some n => exact safe_clientThread fuel n
  · rintro c g i o r ⟨s, ⟨⟩⟩ p hk ha ⟨w, -, he⟩ hready -
    cases hg : g i with
    | waiting n =>
      rw [hg] at ha
      obtain rfl : o = .threadArgs n := ha
      cases he
      exact ⟨trivial, hk.begin hg (hready n rfl)⟩
    | active h =>
      rw [hg] at ha
      refine ⟨?_, hk.step hg ha he⟩
      cases o with
      | startup x =>
        cases x with
        | setVerify =>
          simp only [Process.answer] at he
          split at he
          · simp_all
          · cases he
            rfl
        | _ => trivial
      | _ => trivial

theorem admits_of_asks
    (hr : Config.Reach (Process.Runs allowed) Ready (boot fuel world coming) c) {i : Option ℕ}
    {o : HostCall P} (h : c.Asks i o) : custody.admits (c.phases i) o := by
  obtain ⟨k, hi⟩ := h
  have hkeeps := (kept_of_reach hr).1 i
  rw [hi] at hkeeps
  exact hkeeps.1

theorem Kept.uses {s : Process P} {g : Option ℕ → Phase} {i : Option ℕ} {o : HostCall P}
    (hk : Kept s g) (ha : custody.admits (g i) o) : o.uses s ⊆ ((g i).hold s).owned := by
  cases hg : g i with
  | waiting n =>
    rw [hg] at ha
    obtain rfl : o = .threadArgs n := ha
    simp only [HostCall.uses, Phase.hold]
    cases s.started[n]? with
    | none => exact Finset.empty_subset _
    | some args => exact Finset.singleton_subset_iff.mpr (Finset.mem_insert_self _ _)
  | active h =>
    rw [hg] at ha
    have hs := hk.sound_active hg
    have hroute : ∀ ssl fd, h.link = some (ssl, fd) → s.route ssl ⊆ h.owned := by
      intro ssl fd hl
      unfold Process.route
      cases hf : s.fdOf ssl with
      | none => exact Finset.singleton_subset_iff.mpr (hs.ssl ssl fd hl)
      | some fd' =>
        obtain rfl := hs.route ssl fd fd' hl hf
        exact Finset.insert_subset (hs.ssl ssl fd' hl)
          (Finset.singleton_subset_iff.mpr (hs.fd ssl fd' hl))
    cases o with
    | startup x => exact Finset.empty_subset _
    | accept => exact Finset.empty_subset _
    | sslNew => exact Finset.empty_subset _
    | sslSetFd ssl fd =>
      exact Finset.insert_subset ha.1 (Finset.singleton_subset_iff.mpr ha.2.1)
    | sslAccept ssl => exact ha.2.elim fun fd hl => hroute ssl fd hl
    | newArgs fd ssl =>
      exact Finset.insert_subset (hs.ssl ssl fd ha)
        (Finset.singleton_subset_iff.mpr (hs.fd ssl fd ha))
    | pthreadCreate args =>
      obtain ⟨fd, ssl, hh⟩ := ha
      exact Finset.singleton_subset_iff.mpr (hh ▸ Finset.mem_insert_self _ _)
    | threadArgs n => exact ha.elim
    | deleteArgs args => exact Finset.singleton_subset_iff.mpr ha
    | call ssl q => exact ha.elim fun fd hl => hroute ssl fd hl.1
    | sslShutdown ssl => exact ha.elim fun fd hl => hroute ssl fd hl
    | sslFree ssl => exact ha.elim fun fd hl => Finset.singleton_subset_iff.mpr (hs.ssl ssl fd hl)
    | close fd => exact Finset.singleton_subset_iff.mpr ha.1

/-- In every interleaving every handle that a thread is about to work with is live and no other
thread is about to work with it; commands are served only after the whole of the startup, to
a peer with a certificate; and when all threads have returned and `main` waits for the next
client, nothing is left. -/
theorem handles_have_one_owner
    (hr : Config.Reach (Process.Runs allowed) Ready (boot fuel world coming) c) :
    (∀ i o, c.Asks i o → o.uses c.shared ⊆ c.shared.live) ∧
    (∀ i j o o', i ≠ j → c.Asks i o → c.Asks j o' →
      Disjoint (o.uses c.shared) (o'.uses c.shared)) ∧
    (∀ i ssl q, c.Asks i (.call ssl q) → Startup.required ⊆ c.shared.done ∧
      ∃ fd, c.shared.fdOf ssl = some fd ∧ (c.shared.peer fd).certified = true) ∧
    (c.Asks none .accept →
      (∀ n < c.shared.started.length, ∃ x, c.prog (some n) = .ret (some x)) →
      c.shared.live = ∅) := by
  obtain ⟨hprog, hk⟩ := kept_of_reach hr
  have hadmits := fun i o => admits_of_asks (i := i) (o := o) hr
  refine ⟨fun i o h => ?_, fun i j o o' hij h h' => ?_, fun i ssl q h => ?_, fun hmain hall => ?_⟩
  · exact (hk.uses (hadmits i o h)).trans (hk.owned.subset i)
  · exact (hk.owned.disjoint hij).mono (hk.uses (hadmits i o h)) (hk.uses (hadmits j o' h'))
  · have ha := hadmits i _ h
    cases hg : c.phases i with
    | waiting n =>
      rw [hg] at ha
      cases ha
    | active h =>
      rw [hg] at ha
      obtain ⟨fd, hl, hshaken⟩ := ha
      obtain ⟨hreq, ssl', fd', hl', hf, hc⟩ := (hk.sound_active hg).shaken hshaken
      obtain ⟨rfl, rfl⟩ : ssl = ssl' ∧ fd = fd' := by simpa [hl] using hl'
      exact ⟨hreq, fd, hf, hc⟩
  · have hnone : ∀ i, ((c.phases i).hold c.shared).owned = ∅ := by
      intro i
      cases i with
      | none =>
        have ha := hadmits none _ hmain
        cases hg : c.phases none with
        | waiting n => cases hk.begun none n hg
        | active h =>
          rw [hg] at ha
          exact ha.2
      | some n =>
        by_cases hn : n < c.shared.started.length
        · obtain ⟨x, hx⟩ := hall n hn
          have h := hprog (some n)
          rw [hx] at h
          obtain ⟨known, hg⟩ := h rfl
          rw [hg]
          rfl
        · rw [hk.waiting n (by omega)]
          simp only [Phase.hold, List.getElem?_eq_none (Nat.le_of_not_lt hn)]
          rfl
    refine Finset.eq_empty_of_forall_notMem fun r hr => ?_
    obtain ⟨i, hi⟩ := hk.owned.covered r hr
    rw [hnone i] at hi
    exact Finset.notMem_empty r hi

def twoPeers : Threads Platform.reference :=
  boot 3 ⟨Reference.emptyFs, ⟨⟨[], 0⟩, [], 0⟩⟩
    [⟨⟨ascii "X\n", []⟩, false⟩, ⟨⟨ascii "X\n", []⟩, true⟩]

/-- The first is turned away, and the second served by a thread of its own. -/
def admission : List (Option ℕ × Outcome) :=
  List.replicate 24 (none, .ok) ++ List.replicate 3 (some 0, .ok)

theorem admission_fits : twoPeers.FitsAmong [none, some 0] Process.answer (fun c _ e =>
    match e.1 with
    | .threadArgs n => decide (n < c.shared.started.length)
    | _ => true) admission = true := by decide +kernel

theorem admission_reach : Config.Reach (Process.Runs World.Faultless) Ready twoPeers
    (twoPeers.follow Process.answer admission) := by
  refine (Config.follow_reach_among [none, some 0] admission twoPeers (fun j _ => ?_) admission_fits
    fun x hx o ssl q _ => ?_).strengthen fun c i e c' _ _ hgood n hn => ?_
  · cases j <;> rfl
  · rcases List.mem_append.mp hx with hx | hx <;> rw [List.eq_of_mem_replicate hx] <;> rfl
  · obtain ⟨o, r⟩ := e
    obtain rfl : o = .threadArgs n := hn
    simpa using hgood

theorem admission_has_one_owner : ∃ c,
    Config.Reach (Process.Runs World.Faultless) Ready twoPeers c ∧
    c.Asks (some 0) (.call 0 .sslReadChar) ∧
    HostCall.uses c.shared (.call 0 .sslReadChar) ⊆ c.shared.live ∧
    ∃ fd, c.shared.fdOf 0 = some fd ∧ (c.shared.peer fd).certified = true := by
  have hasks : (twoPeers.follow Process.answer admission).Asks (some 0) (.call 0 .sslReadChar) :=
    ⟨_, rfl⟩
  obtain ⟨hlive, -, hserved, -⟩ := handles_have_one_owner admission_reach
  exact ⟨_, admission_reach, hasks, hlive _ _ hasks, (hserved _ _ _ hasks).2⟩

end Threads

end CctvServer
