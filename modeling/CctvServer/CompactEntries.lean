import CctvServer.FrameSettings
import CctvServer.HistoryRows

namespace CctvServer

open CommandHandler HistoryRepository TcpServer

variable {P : Platform}

namespace CommandHandler.QueryCommand

/-- What the loop of a query makes of a row. Only GET_HISTORY reads it as it is. -/
def entry : QueryCommand → HistoryRow P → Option Json
  | all, r => some (renderFull r.decode)
  | byType, r => renderCompact r.decode.scrub
  | byDates, r => some (renderFull r.decode.scrub)
  | byTypeAndDates, r => renderCompact r.decode.scrub

theorem entry_typed {c : QueryCommand} (h : c.typed = true) (r : HistoryRow P) :
    c.entry r = renderCompact r.decode := by
  cases c with
  | all => cases h
  | byType => exact renderCompact_scrub _
  | byDates => cases h
  | byTypeAndDates => exact renderCompact_scrub _

theorem entry_untyped {c : QueryCommand} (h : c.typed = false) (r : HistoryRow P) :
    c.entry r = some (renderFull r.decode) := by
  cases c with
  | all => rfl
  | byType => cases h
  | byDates => exact congrArg some (renderFull_scrub _)
  | byTypeAndDates => cases h

theorem query_typed (c : QueryCommand) (payload : Bytes) :
    (c.query payload).filter.eventType.isSome = c.typed := by
  cases c <;> rfl

theorem entries_query (c : QueryCommand) (payload : Bytes) (rows : List (HistoryRow P)) :
    entries (c.query payload).filter rows = rows.filterMap c.entry := by
  have htyped := c.query_typed payload
  unfold entries
  cases hf : (c.query payload).filter.eventType with
  | none =>
    rw [hf] at htyped
    have hentry : c.entry = fun r : HistoryRow P => some (renderFull r.decode) :=
      funext (entry_untyped htyped.symm)
    rw [hentry]
    exact List.filterMap_eq_map.symm ▸ rfl
  | some t =>
    rw [hf] at htyped
    have hentry : c.entry = fun r : HistoryRow P => renderCompact r.decode :=
      funext (entry_typed htyped.symm)
    rw [hentry]

theorem runs_handler {E : Env (Res (P := P)) (World P × Socket)} {c : QueryCommand}
    {payload : Bytes} {s s' : World P × Socket} {tr : List (Event (Res (P := P)))}
    {x : Option Bytes} (h : Prog.Runs E (c.handler payload) s tr x s') {f : HistoryFilter}
    {limit offset : ℤ} {rows : List (HistoryRow P)}
    (hrows : ⟨.selectHistory f limit offset, rows⟩ ∈ tr) :
    x = (response "History retrieved successfully" (.arr (rows.filterMap c.entry))).dump := by
  rw [c.handler_eq] at h
  cases hv : (c.query payload).valid with
  | false =>
    rw [HistoryQuery.answer_eq, hv] at h
    rw [h.1] at hrows
    cases hrows
  | true =>
    rcases runs_valid hv h with ⟨-, -, rfl⟩ | ⟨user, s₁, rows', -, -, hx, rfl⟩
    · cases List.mem_singleton.mp hrows
    · rcases List.mem_cons.mp hrows with hrows | hrows
      · cases hrows
      · cases List.mem_singleton.mp hrows
        rw [hx, queryReply, entries_query]

end CommandHandler.QueryCommand

/-- What stands for a field that is not used. -/
def Neutral (v : Json) : Prop := v = .str [] ∨ v = .null

/-- The compact object has no more than the full one, and lacks only neutral members and
those that may be left out. -/
structure Condenses (compact full : List (Bytes × Json)) (left : Bytes → Prop) : Prop where
  shared : ∀ k v, Json.find k compact = some v → Json.find k full = some v
  missing : ∀ k v, Json.find k full = some v → Json.find k compact = none → Neutral v ∨ left k

section Objects

variable {k : Bytes} {v : Json} {members compact full : List (Bytes × Json)}

@[simp] theorem Json.find_nil : Json.find k [] = none := rfl

theorem Json.mem_of_find (h : Json.find k members = some v) : (k, v) ∈ members := by
  obtain ⟨p, hp, rfl⟩ := Option.map_eq_some_iff.mp h
  have hkey : p.1 = k := by simpa using List.find?_some hp
  rw [← hkey]
  exact List.mem_of_find?_eq_some hp

theorem Json.find_of_mem (hkeys : (members.map Prod.fst).Nodup) (h : (k, v) ∈ members) :
    Json.find k members = some v := by
  induction members with
  | nil => cases h
  | cons p rest ih =>
    obtain ⟨hp, hrest⟩ := List.nodup_cons.mp hkeys
    rw [Json.find_cons]
    rcases List.mem_cons.mp h with rfl | h
    · rw [if_pos rfl]
    · have hne : p.1 ≠ k := by
        rintro rfl
        exact hp (List.mem_map.mpr ⟨_, h, rfl⟩)
      rw [if_neg hne, ih hrest h]

theorem Json.find_ne_none (h : (k, v) ∈ members) : Json.find k members ≠ none := by
  rw [Ne, Json.find, Option.map_eq_none_iff, List.find?_eq_none]
  exact fun hall => by simpa using hall _ h

theorem condenses_of_mem {left : Bytes → Prop} (hkeys : (full.map Prod.fst).Nodup)
    (hshared : ∀ p ∈ compact, p ∈ full)
    (hmissing : ∀ p ∈ full, p ∈ compact ∨ Neutral p.2 ∨ left p.1) :
    Condenses compact full left where
  shared _ _ h := Json.find_of_mem hkeys (hshared _ (Json.mem_of_find h))
  missing _ _ h hnone := (hmissing _ (Json.mem_of_find h)).resolve_left fun hmem =>
    Json.find_ne_none hmem hnone

end Objects

def blankEntry (plate : Bytes) : List (Bytes × Json) :=
  [(ascii "date", .str []), (ascii "end_snapshot", .str []), (ascii "event_type", .null),
    (ascii "id", .null), (ascii "image_path", .str []), (ascii "plate_number", .str plate),
    (ascii "speed", .null), (ascii "start_snapshot", .str [])]

def rebuild (plate : Bytes) (compact : List (Bytes × Json)) : List (Bytes × Json) :=
  (blankEntry plate).map fun p => (p.1, (Json.find p.1 compact).getD p.2)

/-- The two entries of a record: the compact one lacks only neutral members, and the plate
number with the type that shows none, and the full one can be made of it. -/
def Restores (h : History P) (compact full : List (Bytes × Json)) : Prop :=
  Condenses compact full (fun k => h.eventType = 2 ∧ k = ascii "plate_number") ∧
    full = rebuild h.plateNumber compact ∧
    (h.eventType ≠ 2 → ∀ plate, full = rebuild plate compact)

section Types

variable {h : History P}

theorem fullKeys_nodup : ((blankEntry []).map Prod.fst).Nodup := by decide

theorem restores_zero (h₀ : h.eventType = 0) : ∃ compact full,
    renderCompact h = some (.obj compact) ∧ renderFull h = .obj full ∧
      Restores h compact full := by
  refine ⟨_, _, renderCompact_zero h₀, renderFull_eq _, ?_, ?_, fun _ plate => ?_⟩
  · exact condenses_of_mem fullKeys_nodup (by simp [h₀]) (by simp [h₀, Neutral])
  · simp +decide [rebuild, blankEntry, h₀]
  · simp +decide [rebuild, blankEntry, h₀]

theorem restores_one (h₁ : h.eventType = 1) : ∃ compact full,
    renderCompact h = some (.obj compact) ∧ renderFull h = .obj full ∧
      Restores h compact full := by
  refine ⟨_, _, renderCompact_one h₁, renderFull_eq _, ?_, ?_, fun _ plate => ?_⟩
  · refine condenses_of_mem fullKeys_nodup ?_ ?_
    · cases h.speed <;> simp [h₁, speedJson]
    · cases h.speed <;> simp [h₁, speedJson, Neutral]
  · cases h.speed <;> simp +decide [rebuild, blankEntry, h₁, speedJson]
  · cases h.speed <;> simp +decide [rebuild, blankEntry, h₁, speedJson]

theorem restores_two (h₂ : h.eventType = 2) : ∃ compact full,
    renderCompact h = some (.obj compact) ∧ renderFull h = .obj full ∧
      Restores h compact full := by
  refine ⟨_, _, renderCompact_two h₂, renderFull_eq _, ?_, ?_, fun hne => absurd h₂ hne⟩
  · exact condenses_of_mem fullKeys_nodup (by simp [h₂]) (by simp [h₂, Neutral])
  · simp +decide [rebuild, blankEntry, h₂]

end Types

theorem RegularRow.restores {r : HistoryRow P} (h : RegularRow r) : ∃ compact full,
    renderCompact r.decode = some (.obj compact) ∧ renderFull r.decode = .obj full ∧
      Restores r.decode compact full := by
  rcases h.type with h₀ | h₁ | h₂
  · exact restores_zero h₀
  · exact restores_one h₁
  · exact restores_two h₂

section Clients

variable {ι : Type} [DecidableEq ι] {c₀ c : Clients P ι (Option Bool)}
  {allowed : Call P → Outcome → Prop}
  {ok : Clients P ι (Option Bool) → ι → Event (Res (P := P)) → Prop}

/-- Each query answers with the entries of the rows it has read; the two queries by type make
the same entries, the two others too, and for every row stored the compact entry is part of
the full one, which a client can make of it but for the plate number of a detection. -/
theorem compact_entry_restores_full {fuel : ι → ℕ}
    (hprog : ∀ i, c₀.prog i = handleClientSSL (fuel i)) (htrace : c₀.trace = [])
    (hempty : c₀.shared.db.history = []) (h : Config.Reach (World.Serves allowed) ok c₀ c) :
    (∀ {E : Env (Res (P := P)) (World P × Socket)} {command : QueryCommand} {payload : Bytes}
      {s s' : World P × Socket} {tr : List (Event (Res (P := P)))} {x : Option Bytes},
      Prog.Runs E (command.handler payload) s tr x s' →
      ∀ f limit offset rows, ⟨.selectHistory f limit offset, rows⟩ ∈ tr →
        x = (response "History retrieved successfully"
          (.arr (rows.filterMap command.entry))).dump) ∧
    ∀ r ∈ c.shared.db.history, ∃ compact full,
      QueryCommand.byType.entry r = some (.obj compact) ∧
      QueryCommand.byTypeAndDates.entry r = some (.obj compact) ∧
      QueryCommand.all.entry r = some (.obj full) ∧
      QueryCommand.byDates.entry r = some (.obj full) ∧ Restores r.decode compact full := by
  refine ⟨fun hrun f limit offset rows => QueryCommand.runs_handler hrun, fun r hr => ?_⟩
  have hregular := (regular_reach hprog htrace hempty h).1 r hr
  obtain ⟨compact, full, hcompact, hfull, hrestores⟩ := hregular.restores
  have hfull' : some (renderFull r.decode) = some (.obj full) := congrArg some hfull
  exact ⟨compact, full, (QueryCommand.entry_typed rfl r).trans hcompact,
    (QueryCommand.entry_typed rfl r).trans hcompact,
    (QueryCommand.entry_untyped rfl r).trans hfull',
    (QueryCommand.entry_untyped rfl r).trans hfull', hrestores⟩

end Clients

def detectionStart : Clients .reference Unit (Option Bool) :=
  sends 40 registered.1 (ascii "ADD_HISTORY d i p 2\n")

theorem detection_fits : detectionStart.Fits World.answer (fun _ _ _ => true)
    (List.replicate 25 ((), .ok)) = true := by decide +kernel

def detectionRow : HistoryRow .reference :=
  ⟨1, .text (ascii "d"), ascii "i", ascii "p", 2, [], [], none⟩

theorem detection_stored :
    (detectionStart.follow World.answer (List.replicate 25 ((), .ok))).shared.db.history =
      [detectionRow] := by
  rfl

/-- The full entry of a detection shows a plate number, the compact one has none. -/
theorem detection_shows_no_plate :
    ∃ c, Config.Reach (World.Serves World.Sending) (fun _ _ _ => true = true) detectionStart c ∧
      ∃ r ∈ c.shared.db.history, ∃ compact full,
        QueryCommand.byType.entry r = some (.obj compact) ∧
        QueryCommand.all.entry r = some (.obj full) ∧
        Json.find (ascii "plate_number") compact = none ∧
        Json.find (ascii "plate_number") full = some (.str (ascii "p")) ∧
        ¬Condenses compact full fun _ => False := by
  have hreach := Clients.follow_reach (List.replicate 25 ((), .ok)) detectionStart detection_fits
    World.Sending.of_faultless (by decide)
  have hmem : detectionRow ∈
      (detectionStart.follow World.answer (List.replicate 25 ((), .ok))).shared.db.history := by
    rw [detection_stored]
    exact List.mem_cons_self
  refine ⟨_, hreach, detectionRow, hmem, _, _, renderCompact_two rfl,
    congrArg some (renderFull_eq _), by rfl, by rfl, fun h => ?_⟩
  rcases h.missing (ascii "plate_number") (.str (ascii "p")) (by rfl) (by rfl) with hneutral | hleft
  · rcases hneutral with h | h <;> cases h
  · exact hleft

theorem detection_is_restored :
    ∃ c, Config.Reach (World.Serves World.Sending) (fun _ _ _ => true = true) detectionStart c ∧
      c.shared.db.history.length = 1 ∧ ∀ r ∈ c.shared.db.history, ∃ compact full,
        QueryCommand.byType.entry r = some (.obj compact) ∧
        QueryCommand.all.entry r = some (.obj full) ∧ Restores r.decode compact full := by
  have hreach := Clients.follow_reach (List.replicate 25 ((), .ok)) detectionStart detection_fits
    World.Sending.of_faultless (by decide)
  obtain ⟨-, hrows⟩ := compact_entry_restores_full (fun _ => rfl) rfl rfl hreach
  refine ⟨_, hreach, congrArg List.length detection_stored, fun r hr => ?_⟩
  obtain ⟨compact, full, hcompact, -, hfull, -, hrestores⟩ := hrows r hr
  exact ⟨compact, full, hcompact, hfull, hrestores⟩

end CctvServer
