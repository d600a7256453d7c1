import Shiroe.Storage.Emit

/-!
# Live writes and replay

A store writes by `emit`: it appends an event and folds it into the tables.  `replayInto` clears
the tables and folds the events of the log.  `Synced` says that the tables are the fold of the
log, that the log is one chain in file order and that `head.json` names its tip.

* `emit_synced` : an `emit` keeps `Synced`, unless the tables reject an event that is already in
  the log.
* `Synced.replayInto` : a replay of a synced log leaves the tables as they are.
-/

namespace Shiroe

/-- The domains that a replay met, and those with an event that was not applied. -/
structure ReplayReport where
  replayed : ℕ := 0
  seen : List Domain := []
  incomplete : List Domain := []
  deriving DecidableEq

variable (H : Host)

/-- One pass of the loop of `replay_into`. -/
def replayEvent (report : ReplayReport) (env : Json) : Act Exc Db ReplayReport := do
  mirrorRow H env
  let expected ← Act.ofExcept (domainForEvent env)
  let applied ← applyEvent H env
  return {
    replayed := report.replayed + 1
    seen := expected.elim report.seen (· :: report.seen)
    incomplete :=
      if expected ≠ none ∧ applied ≠ expected then expected.elim report.incomplete
        (· :: report.incomplete)
      else report.incomplete }

/-- `EventLog.replay_into`. -/
def replayInto (d : LogDir) : Act Exc Db ReplayReport := do
  Act.ofExcept (verifyChain H d)
  modify clearTables
  d.iterEvents.foldlM (replayEvent H) {}

/-- Fold a list of events into the tables. -/
def foldLog (log : List Json) : Act Exc Db Unit := log.forM fun env => do
  let _ ← foldEvent H env

/-! ### The clock -/

/-- The wall clock does not go back. -/
def Host.ClockMonotone : Prop := ∀ m n, m ≤ n → H.clock m ≤ H.clock n

theorem take_le_take {l l' : List Char} (h : l ≤ l') (n : ℕ) : l.take n ≤ l'.take n := by
  rw [← not_lt] at h ⊢
  induction n generalizing l l' with
  | zero => simp
  | succ n ih =>
    cases l with
    | nil => exact List.not_lt_nil _
    | cons a l =>
      cases l' with
      | nil => exact absurd (List.nil_lt_cons a l) h
      | cons b l' =>
        simp only [List.take_succ_cons, List.cons_lt_cons_iff, not_or, not_and] at h ⊢
        exact ⟨h.1, fun hab => ih (h.2 hab)⟩

theorem le_of_append_le_append {p l l' : List Char} (h : p ++ l ≤ p ++ l') : l ≤ l' := by
  rw [← not_lt] at h ⊢
  induction p with
  | nil => exact h
  | cons a p ih => exact ih fun hlt => h (List.cons_lt_cons_iff.2 (Or.inr ⟨rfl, hlt⟩))

/-- The date part of an ISO text, split at its dash. -/
theorem IsoText.toList_eq {s : String} (h : IsoText s) :
    s.toList = s.toList.take 4 ++ '-' :: s.toList.drop 5 := by
  obtain ⟨hlen, hdash⟩ := h
  have h5 : s.toList.drop 4 = '-' :: s.toList.drop 5 := by
    rw [List.drop_eq_getElem_cons (by omega)]
    congr 1
    rw [List.getElem?_eq_getElem (by omega)] at hdash
    exact Option.some.inj hdash
  rw [← h5, List.take_append_drop]

/-- A later ISO text lies in no earlier month. -/
theorem currentPath_le {s t : String} (hs : IsoText s) (ht : IsoText t) (h : s ≤ t) :
    currentPath s ≤ currentPath t := by
  have hl : s.toList ≤ t.toList := String.le_iff_toList_le.1 h
  have hslice : ∀ {u : String} {a b : ℕ}, a < b → a < u.toList.length → slice u a b ≠ "" := by
    intro u a b hab hu h
    have hlen := congrArg (fun v : String => v.toList.length) h
    simp only [slice, String.toList_ofList, List.length_take, List.length_drop] at hlen
    have h0 : "".toList.length = 0 := rfl
    omega
  have hne : ∀ {u : String}, IsoText u →
      currentPath u = [slice u 0 4, slice u 5 7, "events.jsonl"] := by
    rintro u ⟨hlen, -⟩
    simp [currentPath, hslice (show 0 < 4 by omega) (show 0 < u.toList.length by omega),
      hslice (show 5 < 7 by omega) (show 5 < u.toList.length by omega)]
  rw [hne hs, hne ht, ← not_lt]
  have hyear : s.toList.take 4 ≤ t.toList.take 4 := take_le_take hl 4
  simp only [List.cons_lt_cons_iff, List.not_lt_nil, and_false, or_false, not_or, not_and, not_lt,
    slice, List.drop_zero, Nat.sub_zero, String.le_iff_toList_le, String.toList_ofList]
  refine ⟨hyear, fun heq => ⟨?_, fun _ => le_rfl⟩⟩
  have heq' : t.toList.take 4 = s.toList.take 4 := by
    simpa using congrArg String.toList heq
  rw [hs.toList_eq, ht.toList_eq, heq'] at hl
  have hdash : ['-'] ++ s.toList.drop 5 ≤ ['-'] ++ t.toList.drop 5 := le_of_append_le_append hl
  exact take_le_take (le_of_append_le_append hdash) 2

/-! ### Synced worlds -/

/-- The log is one chain with its files in order, `head.json` names its tip, the lock is free, and
no file is dated after a reading of the clock to come. -/
structure LogSynced (H : Host) (w : World) : Prop where
  unlocked : w.dir.lockfile = false
  oneChain : OneChain H w
  head : w.dir.headHash = tipHash H w.dir.iterEvents
  dated : ∀ p ∈ w.dir.files.map (·.1), ∀ n, w.tick ≤ n → p ≤ currentPath (H.clock n)

/-- The tables are the fold of the log. -/
structure Synced (H : Host) (w : World) : Prop extends LogSynced H w where
  folded : foldLog H w.dir.iterEvents {} = .ok () w.db

variable {H}

theorem LogSynced.congr {w w' : World} (h : LogSynced H w) (hdir : w'.dir = w.dir)
    (htick : w.tick ≤ w'.tick) : LogSynced H w' where
  unlocked := by rw [hdir]; exact h.unlocked
  oneChain := h.oneChain.congr (by rw [hdir])
  head := by rw [hdir]; exact h.head
  dated := by
    intro p hp n hn
    rw [hdir] at hp
    exact h.dated p hp n (htick.trans hn)

theorem Synced.congr {w w' : World} (h : Synced H w) (hdir : w'.dir = w.dir)
    (htick : w.tick ≤ w'.tick) (hdb : w'.db = w.db) : Synced H w' where
  toLogSynced := h.toLogSynced.congr hdir htick
  folded := by rw [hdir, hdb]; exact h.folded

/-- Loading the head does not change what the log holds. -/
theorem Loaded.logSynced {i : ℕ} {w w₁ : World} {head : String} (hl : Loaded H i w w₁ head)
    (h : LogSynced H w) : LogSynced H w₁ where
  unlocked := by rw [hl.lockfile]; exact h.unlocked
  oneChain := h.oneChain.congr hl.files
  head := by
    rw [hl.headHash, LogDir.iterEvents_congr hl.files]
    exact hl.head_eq (Or.inr h.head)
  dated := by
    intro p hp n hn
    rw [hl.files] at hp
    rw [hl.frame] at hn
    exact h.dated p hp n hn

theorem foldLog_cons {env : Json} {log : List Json} {db db' : Db} :
    foldLog H (env :: log) db = .ok () db' ↔
      ∃ d db₁, foldEvent H env db = .ok d db₁ ∧ foldLog H log db₁ = .ok () db' := by
  change ((foldEvent H env >>= fun _ => pure ()) >>= fun _ => foldLog H log) db = .ok () db' ↔ _
  simp only [Act.bind_eq_ok]
  constructor
  · rintro ⟨u, db₁, ⟨d, db₂, hf, hp⟩, hl⟩
    cases hp
    exact ⟨d, db₁, hf, hl⟩
  · rintro ⟨d, db₁, hf, hl⟩
    exact ⟨(), db₁, ⟨d, db₁, hf, rfl⟩, hl⟩

theorem foldLog_concat {log : List Json} {env : Json} {db db' : Db} :
    foldLog H (log ++ [env]) db = .ok () db' ↔
      ∃ db₁ d, foldLog H log db = .ok () db₁ ∧ foldEvent H env db₁ = .ok d db' := by
  induction log generalizing db with
  | nil =>
    rw [List.nil_append, foldLog_cons]
    constructor
    · rintro ⟨d, db₁, hf, h⟩
      cases h
      exact ⟨db, d, rfl, hf⟩
    · rintro ⟨db₁, d, h, hf⟩
      cases h
      exact ⟨d, db', hf, rfl⟩
  | cons e log ih =>
    simp only [List.cons_append, foldLog_cons, ih]
    constructor
    · rintro ⟨d₀, db₀, h₀, db₁, d, h₁, h₂⟩
      exact ⟨db₁, d, ⟨d₀, db₀, h₀, h₁⟩, h₂⟩
    · rintro ⟨db₁, d, ⟨d₀, db₀, h₀, h₁⟩, h₂⟩
      exact ⟨d₀, db₀, h₀, db₁, d, h₁, h₂⟩

theorem replayEvent_ok {env : Json} {db db' : Db} {d : Option Domain} (report : ReplayReport)
    (h : foldEvent H env db = .ok d db') : ∃ r, replayEvent H report env db = .ok r db' := by
  obtain ⟨u, db₁, hm, ha⟩ := Act.bind_eq_ok.1 h
  -- the expected domain is what the dispatcher computes first
  obtain ⟨expected, hd⟩ : ∃ expected, domainForEvent env = .ok expected := by
    unfold applyEvent at ha
    cases hd : domainForEvent env with
    | ok expected => exact ⟨expected, rfl⟩
    | error x =>
      rw [hd, Act.bind_of_error (show Act.ofExcept (.error x) db₁ = .error x db₁ from rfl)] at ha
      cases ha
  unfold replayEvent
  rw [Act.bind_of_ok hm, hd, Act.bind_of_ok (show Act.ofExcept (.ok expected) db₁ = _ from rfl),
    Act.bind_of_ok ha]
  exact ⟨_, rfl⟩

/-- A log that folds is replayed to the same tables. -/
theorem foldlM_replayEvent {log : List Json} {db db' : Db} (report : ReplayReport)
    (h : foldLog H log db = .ok () db') :
    ∃ r, log.foldlM (replayEvent H) report db = .ok r db' := by
  induction log generalizing db report with
  | nil =>
    cases h
    exact ⟨report, rfl⟩
  | cons env log ih =>
    obtain ⟨d, db₁, hf, hl⟩ := foldLog_cons.1 h
    obtain ⟨r, hr⟩ := replayEvent_ok report hf
    obtain ⟨r', hr'⟩ := ih r hl
    refine ⟨r', ?_⟩
    rw [List.foldlM_cons, Act.bind_of_ok hr, hr']

/-- **A replay of a synced log leaves the tables that the live writes had left**, whatever the
tables held before. -/
theorem Synced.replayInto {w : World} (h : Synced H w) (db : Db) :
    ∃ report, replayInto H w.dir db = .ok report w.db := by
  have hv : verifyChain H w.dir = .ok () := by
    refine verifyChain_eq_ok.2 ⟨h.oneChain.chain, fun _ head hhead => ?_⟩
    rw [← LogDir.headHash_of_some hhead]
    exact h.head
  obtain ⟨r, hr⟩ := foldlM_replayEvent {} h.folded
  refine ⟨r, ?_⟩
  unfold Shiroe.replayInto
  rw [hv, Act.bind_of_ok (show Act.ofExcept (.ok ()) db = _ from rfl)]
  exact hr

/-! ### Writes keep a world synced -/

/-- The sealed fields of an envelope can be mirrored. -/
def Mirrored (H : Host) (env : Json) : Prop :=
  ∀ k ∈ ["event_id", "timestamp", "hash", "previous_hash"],
    ∃ s, env.get k = .str s ∧ H.encodes s = true

/-- The event of `e` is in the log, is mirrored and is not yet folded. -/
structure Pending (H : Host) (e : EventEnvelope) (w : World) (env : Json) (w' : World) : Prop where
  logSynced : LogSynced H w'
  events : w'.dir.iterEvents = w.dir.iterEvents ++ [env]
  mirrored : mirrorRow H env w.db = .ok () w'.db
  isEnv : IsEnvOf H e (e.timestampAt H w) env
  sealedFields : Mirrored H env

/-- The tables reject the event of `e` that an `emit` writes in `w`. -/
def Rejects (H : Host) (e : EventEnvelope) (w : World) : Prop :=
  ∃ env x db, IsEnvOf H e (e.timestampAt H w) env ∧ Mirrored H env ∧
    foldEvent H env w.db = .error x db

/-- The event leaves its id and its time to the log. -/
def EventEnvelope.Open (e : EventEnvelope) : Prop := e.eventId = none ∧ e.timestamp = none

theorem encodes_tipHash (log : List Json) : H.encodes (tipHash H log) = true := by
  unfold tipHash
  cases log.getLast? with
  | none => exact H.encodes_ascii genesis (by decide)
  | some env =>
    change H.encodes ("sha256:" ++ _) = true
    rw [H.encodes_append, H.encodes_ascii _ (by decide), H.encodes_ascii _ (H.sha256_ascii _)]
    rfl

theorem encodes_clock (n : ℕ) : H.encodes (H.clock n) = true := H.encodes_ascii _ (H.clock_ascii n)

theorem encodes_slice_uuid (n a b : ℕ) : H.encodes (slice (H.uuid n) a b) = true := by
  refine H.encodes_ascii _ fun c hc => H.uuid_ascii n c ?_
  rw [slice, String.toList_ofList] at hc
  exact List.mem_of_mem_drop (List.mem_of_mem_take hc)

/-- The time that the log fills in. -/
theorem EventEnvelope.Open.encodes_timestampAt {e : EventEnvelope} (he : e.Open) (w : World) :
    H.encodes (e.timestampAt H w) = true := by
  rw [EventEnvelope.timestampAt, he.2]
  exact encodes_clock w.tick

/-- The fields that the log fills in can be mirrored. -/
theorem EventEnvelope.Open.mirrored {e : EventEnvelope} (he : e.Open) {w : World} {head : String}
    (hhead : H.encodes head = true) : Mirrored H ((e.scrubbed H).preparedAt H w head) := by
  have hid : (e.scrubbed H).eventIdAt H w = "evt_" ++ slice (H.uuid w.drawn) 0 16 := by
    simp [EventEnvelope.eventIdAt, EventEnvelope.scrubbed, he.1, given]
  have htime : (e.scrubbed H).timestampAt H w = H.clock w.tick := by
    simp [EventEnvelope.timestampAt, EventEnvelope.scrubbed, he.2, given]
  have hget : ∀ k s, (("hash", .str ((e.scrubbed H).hashAt H w head)) ::
      (e.scrubbed H).fields ((e.scrubbed H).eventIdAt H w) ((e.scrubbed H).timestampAt H w)
        head).lookup k = some (.str s) → H.encodes s = true →
      ∃ s, ((e.scrubbed H).preparedAt H w head).get k = .str s ∧ H.encodes s = true := by
    intro k s hk hs
    refine ⟨s, ?_, hs⟩
    rw [EventEnvelope.preparedAt, EventEnvelope.prepared, Json.get_mkObj]
    exact congrArg (·.getD Json.null) hk
  intro k hk
  simp only [List.mem_cons, List.not_mem_nil, or_false] at hk
  rcases hk with rfl | rfl | rfl | rfl
  · refine hget _ ((e.scrubbed H).eventIdAt H w) (by simp [EventEnvelope.fields, List.lookup]) ?_
    rw [hid, H.encodes_append, H.encodes_ascii "evt_" (by decide), encodes_slice_uuid]
    rfl
  · refine hget _ ((e.scrubbed H).timestampAt H w) (by simp [EventEnvelope.fields, List.lookup]) ?_
    rw [htime]
    exact H.encodes_ascii _ (H.clock_ascii _)
  · refine hget _ ((e.scrubbed H).hashAt H w head) (by simp [List.lookup]) ?_
    change H.encodes ("sha256:" ++ _) = true
    rw [H.encodes_append, H.encodes_ascii _ (by decide), H.encodes_ascii _ (H.sha256_ascii _)]
    rfl
  · exact hget _ head (by simp [EventEnvelope.fields, List.lookup]) hhead

/-- The line of an event that leaves its time to the clock keeps the log synced. -/
theorem LogSynced.sealedDir {i : ℕ} {e : EventEnvelope} {w w₁ w' : World} {head : String}
    (hmono : H.ClockMonotone) (h : LogSynced H w) (hopen : e.timestamp = none)
    (hl : Loaded H i w w₁ head)
    (hv : validateEnvelope true ((e.scrubbed H).preparedAt H w₁ head) = .ok ())
    (hdir : w'.dir = sealedDir H e w₁ head) (htick : w.tick + 1 ≤ w'.tick) :
    LogSynced H w' ∧
      w'.dir.iterEvents = w.dir.iterEvents ++ [(e.scrubbed H).preparedAt H w₁ head] := by
  have htime : e.timestampAt H w = H.clock w.tick := by
    rw [EventEnvelope.timestampAt, hopen]
    rfl
  have hlast : ∀ p ∈ w.dir.files.map (·.1), p ≤ currentPath (e.timestampAt H w) := by
    intro p hp
    rw [htime]
    exact h.dated p hp w.tick le_rfl
  have hhead : head = tipHash H w.dir.iterEvents := hl.head_eq (Or.inr h.head)
  obtain ⟨hord, hchain, htip⟩ := h.oneChain.lineDir hl hhead hlast hv
  have hfiles : w'.dir.files =
      appendLine (currentPath (e.timestampAt H w)) ((e.scrubbed H).preparedAt H w₁ head)
        w.dir.files := by
    rw [hdir, ← hl.timestampAt e, ← hl.files]
    rfl
  refine ⟨⟨?_, ⟨by rw [hdir]; exact hchain, by rw [hdir]; exact hord⟩, ?_, ?_⟩, ?_⟩
  · rw [hdir]
    exact hl.lockfile.trans h.unlocked
  · rw [hdir]
    exact htip.symm
  · intro p hp n hn
    rw [hfiles] at hp
    rcases mem_paths_appendLine.1 hp with rfl | hp
    · rw [htime]
      exact currentPath_le (H.clock_iso _) (H.clock_iso _) (hmono _ _ (by omega))
    · exact h.dated p hp n (by omega)
  · rw [LogDir.iterEvents, hfiles]
    exact appendLine_last h.oneChain.order hlast

theorem append_synced (hmono : H.ClockMonotone) {w : World} (h : Synced H w) (i : ℕ)
    {e : EventEnvelope} (he : e.Open) :
    Act.wp (append H i e none) (Pending H e w) (fun _ w' => Synced H w' ∨ Rejects H e w) w := by
  refine Act.wp_mono (Act.wp_and (append_spec i e none w) (append_frame i e none w)) ?_ ?_
  · rintro env w' ⟨⟨w₁, head, ha⟩, -⟩
    have hv := ha.valid
    rw [ha.env_eq] at hv
    have htick : w'.tick = w.tick + 1 := by
      rw [ha.frame, ha.loaded.frame]
      simp [EventEnvelope.stamp, EventEnvelope.scrubbed, he.2, given]
    have hdir : w'.dir = Shiroe.sealedDir H e w₁ head := by rw [ha.frame]
    obtain ⟨hlog, hevents⟩ :=
      h.toLogSynced.sealedDir hmono he.2 ha.loaded hv hdir (by omega)
    refine ⟨hlog, by rw [hevents, ha.env_eq], ha.mirrored, ha.isEnv, ?_⟩
    rw [ha.env_eq]
    refine he.mirrored ?_
    rw [ha.loaded.head_eq (Or.inr h.head)]
    exact encodes_tipHash _
  · rintro x w' ⟨hh, -, htick, hdb⟩
    rcases hh with ⟨hdir, -⟩ | ⟨w₁, head, hl, hdir, -⟩ | ⟨-, -, -, -, -, -, hcut⟩ |
      ⟨w₁, head, hl, hv, -, -, hcut⟩
    · exact Or.inl (h.congr hdir htick hdb)
    · have h₁ : Synced H w₁ :=
        { hl.logSynced h.toLogSynced with
          folded := by
            rw [LogDir.iterEvents_congr hl.files, hl.frame]
            exact h.folded }
      refine Or.inl (h₁.congr hdir ?_ ?_)
      · rwa [show w₁.tick = w.tick by rw [hl.frame]]
      · rw [hdb, hl.frame]
    · cases hcut
    · obtain ⟨x', db, hm⟩ := hcut.resolve_left (by simp)
      have hhead : H.encodes head = true := by
        rw [hl.head_eq (Or.inr h.head)]
        exact encodes_tipHash _
      exact Or.inr ⟨_, x', db, hl.isEnv e, he.mirrored hhead, Act.bind_of_error hm⟩

/-- Folding the pending event makes the world synced again. -/
theorem Pending.synced {e : EventEnvelope} {w w₁ w₂ : World} {env : Json}
    {d : Option Domain} (hp : Pending H e w env w₁) (h : Synced H w) (hdir : w₂.dir = w₁.dir)
    (htick : w₁.tick ≤ w₂.tick) (hf : foldEvent H env w.db = .ok d w₂.db) : Synced H w₂ where
  toLogSynced := hp.logSynced.congr hdir htick
  folded := by
    rw [hdir, hp.events, foldLog_concat]
    exact ⟨w.db, d, h.folded, hf⟩

theorem Pending.rejects {e : EventEnvelope} {w w₁ : World} {env : Json} {x : Exc} {db : Db}
    (hp : Pending H e w env w₁) (hf : applyEvent H env w₁.db = .error x db) : Rejects H e w := by
  refine ⟨env, x, db, hp.isEnv, hp.sealedFields, ?_⟩
  rw [foldEvent, Act.bind_of_ok hp.mirrored]
  exact hf

/-- **An `emit` keeps a world synced**, unless the tables reject the event. -/
theorem emit_synced (hmono : H.ClockMonotone) {w : World} (h : Synced H w) (i : ℕ)
    {e : EventEnvelope} (he : e.Open) :
    Act.wp (emit H i e) (fun _ w' => Synced H w') (fun _ w' => Synced H w' ∨ Rejects H e w) w := by
  rw [emit, Act.wp_bind]
  refine Act.wp_mono (append_synced hmono h i he) (fun env w₁ hp => ?_) fun _ _ h => h
  rw [Act.wp_bind, onDb, Act.wp_zoom]
  unfold Act.wp
  cases hf : applyEvent H env w₁.db with
  | ok d db =>
    refine hp.synced h rfl le_rfl (d := d) ?_
    rw [foldEvent, Act.bind_of_ok hp.mirrored]
    exact hf
  | error x db => exact Or.inr (hp.rejects hf)

/-- **A direct update between append and fold is overwritten by the fold**: the world stays synced,
unless the statement or the tables reject something. -/
theorem emitWith_synced (hmono : H.ClockMonotone) {w : World} (h : Synced H w) (i : ℕ)
    {e : EventEnvelope} (he : e.Open) {write : String → Act Exc Db Unit}
    (hwrite : ∀ when env db db₁, IsEnvOf H e (e.timestampAt H w) env →
      write when db = .ok () db₁ → applyEvent H env db₁ = applyEvent H env db) :
    Act.wp (emitWith H i e write) (fun _ w' => Synced H w')
      (fun _ w' => Synced H w' ∨ Rejects H e w ∨
        ∃ n x db db', write (H.clock n) db = .error x db') w := by
  rw [emitWith, Act.wp_bind]
  refine Act.wp_mono (append_synced hmono h i he) (fun env w₁ hp => ?_) fun _ _ h =>
    h.elim Or.inl fun h => Or.inr (Or.inl h)
  simp only [onDb, Act.wp_bind, Act.wp_zoom, wp_now]
  unfold Act.wp
  cases hw : write (H.clock w₁.tick) w₁.db with
  | error x db => exact Or.inr (Or.inr ⟨_, x, _, db, hw⟩)
  | ok u db₁ =>
    have hsame := hwrite _ env _ _ hp.isEnv hw
    simp only
    cases hf : applyEvent H env db₁ with
    | ok d db =>
      rw [hsame] at hf
      refine hp.synced h rfl (Nat.le_succ _) (d := d) ?_
      rw [foldEvent, Act.bind_of_ok hp.mirrored]
      exact hf
    | error x db =>
      rw [hsame] at hf
      exact Or.inr (Or.inl (hp.rejects hf))

end Shiroe
