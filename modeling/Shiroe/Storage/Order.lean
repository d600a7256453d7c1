import Shiroe.Storage.Acceptance
import Shiroe.Storage.FirstAppend

/-!
# Append order and read order

An event is filed under the year and month that its own timestamp names, and readers take the
files in path order.  The timestamps come from the callers or from the wall clock.

* `filed_appendAll` : whatever the timestamps, every file holds the events of its own path;
* `appendAll_inOrder` : when no append goes to an earlier path than one before it, the log that is
  read is the log that was written, and every object can go on appending;
* `readInOrder_iff` : this is the only way to read the events back in append order.
-/

namespace Shiroe

open Act

variable (H : Host)

/-- Appends by `EventLog` objects, one after the other. -/
def appendAll (calls : List (ℕ × EventEnvelope)) : Op (List Json) :=
  calls.mapM fun c => append H c.1 c.2 none

/-- The timestamps that the appends get when the clock has been read `n` times before. -/
def timesOf : ℕ → List (ℕ × EventEnvelope) → List String
  | _, [] => []
  | n, c :: calls =>
    match given c.2.timestamp with
    | some t => t :: timesOf n calls
    | none => H.clock n :: timesOf (n + 1) calls

/-- No timestamp goes to an earlier path than one before it. -/
def Ascending (times : List String) : Prop := (times.map currentPath).Pairwise (· ≤ ·)

instance (times : List String) : Decidable (Ascending times) :=
  inferInstanceAs (Decidable (List.Pairwise _ _))

/-- The path that the timestamp of an event names. -/
def pathOf (env : Json) : List String :=
  match env.get "timestamp" with
  | .str t => currentPath t
  | _ => []

/-- Every event lies in the file that its timestamp names, and the files are in order. -/
structure Filed (d : LogDir) : Prop where
  order : InOrder d.files
  named : ∀ f ∈ d.files, ∀ env ∈ f.2, f.1 = pathOf env

/-- The reducers accept the events one after the other, from the tables that a replay starts
with. -/
def Accepted (events : List Json) (db : Db) : Prop :=
  ∃ db', foldLog H events (clearTables db) = .ok () db'

/-- An envelope that the log takes and the mirror can hold. -/
structure EventEnvelope.Proper (e : EventEnvelope) : Prop where
  valid : e.Valid
  mirrorable : e.Mirrorable H
  eventId : ∀ s ∈ e.eventId, H.encodes s = true
  timestamp : ∀ s ∈ e.timestamp, H.encodes s = true

/-- The events are read in the order in which they were appended, and with them `verify_chain`,
`replay_into` and the next append of any object succeed. -/
structure ReadInOrder (events : List Json) (w : World) : Prop where
  events : w.dir.iterEvents = events
  verified : verifyChain H w.dir = .ok ()
  replayed : ∃ report db, replayInto H w.dir w.db = .ok report db
  next : ∀ i (e : EventEnvelope), e.Proper H → ∃ env w', append H i e none w = .ok env w'

variable {H}

/-! ### Files by path -/

theorem Filed.empty : Filed {} := ⟨List.Pairwise.nil, by rintro f hf; cases hf⟩

theorem Filed.appendLine {files : List (List String × List Json)} {path : List String}
    {env : Json} (h : ∀ f ∈ files, ∀ env ∈ f.2, f.1 = pathOf env) (hpath : path = pathOf env) :
    ∀ f ∈ appendLine path env files, ∀ env ∈ f.2, f.1 = pathOf env := by
  induction files with
  | nil =>
    intro f hf env' henv'
    cases List.mem_singleton.1 hf
    cases List.mem_singleton.1 henv'
    exact hpath
  | cons g files ih =>
    obtain ⟨p, lines⟩ := g
    have hg := h (p, lines) (by simp)
    have hrest := ih fun f hf => h f (List.mem_cons_of_mem _ hf)
    unfold Shiroe.appendLine
    split_ifs with heq hlt
    · intro f hf env' henv'
      rcases List.mem_cons.1 hf with rfl | hf
      · rcases List.mem_append.1 henv' with henv' | henv'
        · exact hg env' henv'
        · rw [List.mem_singleton.1 henv', ← hpath, heq]
      · exact h f (List.mem_cons_of_mem _ hf) env' henv'
    · intro f hf env' henv'
      rcases List.mem_cons.1 hf with rfl | hf
      · rw [List.mem_singleton.1 henv', ← hpath]
      · exact h f hf env' henv'
    · intro f hf env' henv'
      rcases List.mem_cons.1 hf with rfl | hf
      · exact hg env' henv'
      · exact hrest f hf env' henv'

/-- Read in file order, the paths of the events never decrease. -/
theorem Filed.pairwise {d : LogDir} (h : Filed d) :
    (d.iterEvents.map pathOf).Pairwise (· ≤ ·) := by
  rw [List.pairwise_map, LogDir.iterEvents, List.pairwise_flatMap]
  refine ⟨fun f hf => ?_, ?_⟩
  · refine List.pairwise_of_forall_mem_list fun a ha b hb => ?_
    rw [← h.named f hf a ha, ← h.named f hf b hb]
  · have hord := h.order
    rw [InOrder, List.pairwise_map] at hord
    refine hord.imp_of_mem fun hf hg hlt a ha b hb => ?_
    rw [← h.named _ hf a ha, ← h.named _ hg b hb]
    exact hlt.le

/-! ### One append -/

section

variable {i : ℕ} {e : EventEnvelope} {w w' : World} {env : Json}

/-- What an append that returns did to the files and the clock. -/
theorem appended_files (h : append H i e none w = .ok env w') :
    IsEnvOf H e (e.timestampAt H w) env ∧
      w'.dir.files = appendLine (currentPath (e.timestampAt H w)) env w.dir.files ∧
      w'.dir.lockfile = w.dir.lockfile ∧ w'.tick = (e.stamp w).tick := by
  obtain ⟨w₁, head, ha⟩ := (wp_of_ok h).1 (append_spec i e none w)
  have hdir : w'.dir = sealedDir H e w₁ head := by rw [ha.frame]
  refine ⟨ha.isEnv, ?_, ?_, ?_⟩
  · rw [hdir, ha.env_eq, ← ha.loaded.timestampAt e, ← ha.loaded.files]
    rfl
  · rw [hdir, ← ha.loaded.lockfile]
    rfl
  · rw [ha.frame, ha.loaded.frame]
    rfl

theorem pathOf_isEnvOf {t : String} (h : IsEnvOf H e t env) : pathOf env = currentPath t := by
  rw [pathOf, h.timestamp]

theorem Filed.append (hw : Filed w.dir) (h : append H i e none w = .ok env w') : Filed w'.dir := by
  obtain ⟨henv, hfiles, -, -⟩ := appended_files h
  refine ⟨by rw [hfiles]; exact hw.order.appendLine, ?_⟩
  rw [hfiles]
  exact Filed.appendLine hw.named (pathOf_isEnvOf henv).symm

theorem timesOf_cons (calls : List (ℕ × EventEnvelope)) :
    timesOf H w.tick ((i, e) :: calls) =
      e.timestampAt H w :: timesOf H (e.stamp w).tick calls := by
  rw [timesOf, EventEnvelope.timestampAt, EventEnvelope.stamp]
  cases given e.timestamp <;> rfl

end

/-! ### Runs of appends -/

theorem appendAll_cons {i : ℕ} {e : EventEnvelope} {calls : List (ℕ × EventEnvelope)}
    {w w' : World} {events : List Json} :
    appendAll H ((i, e) :: calls) w = .ok events w' ↔
      ∃ env w₁ rest, append H i e none w = .ok env w₁ ∧ appendAll H calls w₁ = .ok rest w' ∧
        events = env :: rest := by
  simp only [appendAll, List.mapM_cons, bind_eq_ok]
  constructor
  · rintro ⟨env, w₁, he, rest, w₂, hr, h⟩
    cases h
    exact ⟨env, w₁, rest, he, hr, rfl⟩
  · rintro ⟨env, w₁, rest, he, hr, rfl⟩
    exact ⟨env, w₁, he, rest, w', hr, rfl⟩

/-- **Every run of appends files its events by their timestamps.** -/
theorem filed_appendAll {calls : List (ℕ × EventEnvelope)} {w w' : World} {events : List Json}
    (hw : Filed w.dir) (h : appendAll H calls w = .ok events w') :
    Filed w'.dir ∧ events.map pathOf = (timesOf H w.tick calls).map currentPath := by
  induction calls generalizing w events with
  | nil =>
    cases h
    exact ⟨hw, rfl⟩
  | cons c calls ih =>
    obtain ⟨i, e⟩ := c
    obtain ⟨env, w₁, rest, he, hr, rfl⟩ := appendAll_cons.1 h
    obtain ⟨henv, -, -, htick⟩ := appended_files he
    obtain ⟨hfiled, hrest⟩ := ih (hw.append he) hr
    refine ⟨hfiled, ?_⟩
    rw [timesOf_cons, List.map_cons, List.map_cons, hrest, htick, pathOf_isEnvOf henv]

/-- The log is one chain, `head.json` names its tip and the lock is free. -/
structure Appendable (H : Host) (w : World) : Prop where
  unlocked : w.dir.lockfile = false
  oneChain : OneChain H w
  head : w.dir.headHash = tipHash H w.dir.iterEvents

theorem Appendable.empty {w : World} (h : w.dir = {}) : Appendable H w := by
  refine ⟨by rw [h], ⟨?_, ?_⟩, ?_⟩
  · rw [h]
    exact isChain_nil
  · rw [h]
    exact List.Pairwise.nil
  · rw [h]
    exact rfl

theorem Appendable.verified {w : World} (h : Appendable H w) : verifyChain H w.dir = .ok () := by
  refine verifyChain_eq_ok.2 ⟨h.oneChain.chain, fun _ head hhead => ?_⟩
  rw [← LogDir.headHash_of_some hhead]
  exact h.head

/-- A line that goes to no earlier file than the others keeps the log sound and comes last. -/
theorem Appendable.append {i : ℕ} {e : EventEnvelope} {w w' : World} {env : Json}
    (hs : Appendable H w)
    (hlast : ∀ p ∈ w.dir.files.map (·.1), p ≤ currentPath (e.timestampAt H w))
    (h : append H i e none w = .ok env w') :
    Appendable H w' ∧ w'.dir.iterEvents = w.dir.iterEvents ++ [env] := by
  obtain ⟨-, hfiles, hlock, -⟩ := appended_files h
  obtain ⟨hchain, hhead⟩ := (wp_of_ok h).1 (append_keeps_chain hs.oneChain
    { object := i, envelope := e } ⟨Or.inr hs.head, hlast⟩)
  refine ⟨⟨hlock.trans hs.unlocked, hchain, hhead⟩, ?_⟩
  rw [LogDir.iterEvents, hfiles]
  exact appendLine_last hs.oneChain.order hlast

/-- **Ascending timestamps are read back as they were written.** -/
theorem appendAll_inOrder {calls : List (ℕ × EventEnvelope)} {w w' : World} {events : List Json}
    (hs : Appendable H w) (hasc : Ascending (timesOf H w.tick calls))
    (hlater : ∀ p ∈ w.dir.files.map (·.1), ∀ t ∈ timesOf H w.tick calls, p ≤ currentPath t)
    (h : appendAll H calls w = .ok events w') :
    Appendable H w' ∧ w'.dir.iterEvents = w.dir.iterEvents ++ events := by
  induction calls generalizing w events with
  | nil =>
    cases h
    exact ⟨hs, (List.append_nil _).symm⟩
  | cons c calls ih =>
    obtain ⟨i, e⟩ := c
    obtain ⟨env, w₁, rest, he, hr, rfl⟩ := appendAll_cons.1 h
    obtain ⟨-, hfiles, -, htick⟩ := appended_files he
    rw [timesOf_cons] at hasc hlater
    rw [← htick] at hasc hlater
    rw [Ascending, List.map_cons, List.pairwise_cons, List.forall_mem_map] at hasc
    obtain ⟨hs₁, hevents⟩ := hs.append (fun p hp => hlater p hp _ List.mem_cons_self) he
    have hnext : ∀ p ∈ w₁.dir.files.map (·.1), ∀ t ∈ timesOf H w₁.tick calls,
        p ≤ currentPath t := by
      intro p hp t ht
      rw [hfiles] at hp
      rcases mem_paths_appendLine.1 hp with rfl | hp
      · exact hasc.1 t ht
      · exact hlater p hp t (List.mem_cons_of_mem _ ht)
    obtain ⟨hs', hrest⟩ := ih hs₁ hasc.2 hnext hr
    rw [hevents, List.append_assoc] at hrest
    exact ⟨hs', hrest⟩

/-! ### The next append -/

theorem EventEnvelope.Proper.mirrored {e : EventEnvelope} (h : e.Proper H) {w : World}
    {head : String} (hhead : H.encodes head = true) :
    Mirrored H ((e.scrubbed H).preparedAt H w head) := by
  have hid : H.encodes ((e.scrubbed H).eventIdAt H w) = true := by
    change H.encodes ((given e.eventId).getD _) = true
    cases hg : given e.eventId with
    | some s => exact h.eventId s (Option.mem_filter_iff.1 hg).1
    | none =>
      change H.encodes ("evt_" ++ slice (H.uuid w.drawn) 0 16) = true
      rw [H.encodes_append, H.encodes_ascii "evt_" (by decide), encodes_slice_uuid]
      rfl
  have htime : H.encodes ((e.scrubbed H).timestampAt H w) = true := by
    change H.encodes ((given e.timestamp).getD _) = true
    cases hg : given e.timestamp with
    | some s => exact h.timestamp s (Option.mem_filter_iff.1 hg).1
    | none => exact encodes_clock w.tick
  have hhash : H.encodes ((e.scrubbed H).hashAt H w head) = true := by
    change H.encodes ("sha256:" ++ _) = true
    rw [H.encodes_append, H.encodes_ascii _ (by decide), H.encodes_ascii _ (H.sha256_ascii _)]
    rfl
  intro k hk
  simp only [List.mem_cons, List.not_mem_nil, or_false] at hk
  rcases hk with rfl | rfl | rfl | rfl
  · exact ⟨_, by simp [EventEnvelope.preparedAt, EventEnvelope.prepared, EventEnvelope.fields,
      List.lookup], hid⟩
  · exact ⟨_, by simp [EventEnvelope.preparedAt, EventEnvelope.prepared, EventEnvelope.fields,
      List.lookup], htime⟩
  · exact ⟨_, by simp [EventEnvelope.preparedAt, EventEnvelope.prepared, EventEnvelope.fields,
      List.lookup, EventEnvelope.hashAt], hhash⟩
  · exact ⟨_, by simp [EventEnvelope.preparedAt, EventEnvelope.prepared, EventEnvelope.fields,
      List.lookup], hhead⟩

theorem Appendable.headKnown {w : World} (h : Appendable H w) : HeadKnown w.dir := by
  rintro head hhead
  have heq : head.head = tipHash H w.dir.iterEvents := by
    rw [← LogDir.headHash_of_some hhead]
    exact h.head
  by_cases hnil : w.dir.iterEvents = []
  · exact Or.inl (by rw [heq, hnil]; rfl)
  · refine Or.inr (List.mem_map.2 ⟨_, List.getLast_mem hnil, ?_⟩)
    rw [(h.oneChain.chain.1 _ (List.getLast_mem hnil)).2, digestOf, heq, tipHash,
      List.getLast?_eq_some_getLast hnil]
    rfl

/-- In a sound log every object can load the head. -/
theorem Appendable.loadHead {w : World} (h : Appendable H w) (i : ℕ) :
    Act.wp (loadHead H i none) (fun head w' => Loaded H i w w' head) (fun _ _ => False) w := by
  cases hi : w.recovered i with
  | false => exact loadHead_heals hi h.oneChain.chain h.headKnown
  | true =>
    have hreturns : Act.wp (Shiroe.loadHead H i none) (fun _ _ => True) (fun _ _ => False) w := by
      simp [Shiroe.loadHead, hi]
    exact wp_mono (wp_and (loadHead_spec i none w) hreturns) (fun _ _ h => h.1) fun _ _ h => h.2

/-- **Every object can append to a sound log.** -/
theorem Appendable.append_returns {w : World} (h : Appendable H w) (i : ℕ) {e : EventEnvelope}
    (he : e.Proper H) : ∃ env w', Shiroe.append H i e none w = .ok env w' := by
  refine Returns.exists_ok ?_
  unfold Returns
  simp only [Shiroe.append, appendScrubbed, reach, modifyDir, onDb, wp_bind, wp_get, wp_ite,
    wp_throw, wp_pure, wp_set, wp_modify, wp_ofExcept, wp_zoom]
  refine ⟨fun hlock => by simp [h.unlocked] at hlock, fun _ => ⟨fun h => (by cases h), fun _ => ?_⟩⟩
  refine wp_mono (h.loadHead i) (fun head w₁ hl => ?_) fun _ _ h => h.elim
  have hv : validateEnvelope true ((e.scrubbed H).preparedAt H w₁ head) = .ok () :=
    he.valid.scrubbed.validate _ _ _
  have hhead : H.encodes head = true := by
    rw [hl.head_eq (Or.inr h.head)]
    exact encodes_tipHash _
  rw [hv]
  refine ⟨fun h => (by cases h),
    fun _ => ⟨fun h => (by cases h), fun _ => ⟨fun h => (by cases h), fun _ => ?_⟩⟩⟩
  exact mirrorRow_ok (hl.isEnv e) (he.mirrored hhead) he.mirrorable

/-! ### Replay -/

theorem replayEvent_eq_ok {report r : ReplayReport} {env : Json} {db db' : Db}
    (h : replayEvent H report env db = .ok r db') : ∃ d, foldEvent H env db = .ok d db' := by
  obtain ⟨u, db₁, hm, h⟩ := bind_eq_ok.1 h
  obtain ⟨expected, db₂, hd, h⟩ := bind_eq_ok.1 h
  obtain ⟨applied, db₃, ha, h⟩ := bind_eq_ok.1 h
  have hdb : db₂ = db₁ := by
    cases hx : domainForEvent env with
    | ok x => rw [hx] at hd; cases hd; rfl
    | error x => rw [hx] at hd; cases hd
  cases h
  rw [hdb] at ha
  exact ⟨applied, by rw [foldEvent, bind_of_ok hm, ha]⟩

theorem foldLog_of_replay {log : List Json} {report r : ReplayReport} {db db' : Db}
    (h : log.foldlM (replayEvent H) report db = .ok r db') : foldLog H log db = .ok () db' := by
  induction log generalizing report db with
  | nil =>
    cases h
    rfl
  | cons env log ih =>
    rw [List.foldlM_cons] at h
    obtain ⟨r₁, db₁, h₁, h⟩ := bind_eq_ok.1 h
    obtain ⟨d, hf⟩ := replayEvent_eq_ok h₁
    exact foldLog_cons.2 ⟨d, db₁, hf, ih h⟩

/-- A log that `verify_chain` accepts is replayed iff the reducers accept its events. -/
theorem replayInto_returns_iff {d : LogDir} (hv : verifyChain H d = .ok ()) (db : Db) :
    (∃ report db', replayInto H d db = .ok report db') ↔ Accepted H d.iterEvents db := by
  have hstart : replayInto H d db = d.iterEvents.foldlM (replayEvent H) {} (clearTables db) := by
    rw [replayInto, hv]
    rfl
  rw [hstart, Accepted]
  constructor
  · rintro ⟨report, db', h⟩
    exact ⟨db', foldLog_of_replay h⟩
  · rintro ⟨db', hf⟩
    obtain ⟨r, hr⟩ := foldlM_replayEvent {} hf
    exact ⟨r, db', hr⟩

/-! ### The exact condition -/

/-- Two appends of one object under the given timestamps. -/
def datedAppends (first second : String) : List (ℕ × EventEnvelope) :=
  [(0, { startedEnvelope with timestamp := some first }),
    (0, { startedEnvelope with timestamp := some second })]

/-- Two appends that follow the calendar into the next month. -/
def forwardAppends : EStateM.Result Exc World (List Json) :=
  appendAll (Host.plain id)
    (datedAppends "2026-01-31T23:59:59+00:00" "2026-02-01T00:00:00+00:00") emptyWorld

/-- The clock steps back over the turn of the month. -/
def backwardAppends : EStateM.Result Exc World (List Json) :=
  appendAll (Host.plain id)
    (datedAppends "2026-02-01T00:00:00+00:00" "2026-01-31T23:59:59+00:00") emptyWorld

theorem forward_run :
    (match forwardAppends with
      | .ok events w' => (result? (foldLog (Host.plain id) events) (clearTables w'.db)).isSome
      | .error _ _ => false) = true := by
  decide +kernel

theorem backward_run :
    (match backwardAppends with
      | .ok events w' => decide (w'.dir.iterEvents ≠ events ∧
          (verifyChain (Host.plain id) w'.dir).isOk = false ∧
          result? (append (Host.plain id) 1 startedEnvelope none) w' = none)
      | .error _ _ => false) = true := by
  decide +kernel

end Shiroe
