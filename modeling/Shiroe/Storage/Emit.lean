import Shiroe.Storage.Projections
import Shiroe.Storage.Recovery

/-!
# Writing through the log

A store writes by `emit`: it appends an event and folds it into the tables by the reducers.  Two
operations also update the tables directly between the two steps (`emitWith`).

* `IsEnvOf` : what a reducer reads of the envelope that an append wrote;
* `emit_spec` : an `emit` that returns has folded its event; one that raises leaves the tables as
  they were, or as the rejected event left them;
* `emitWith_spec` : the same with the statement in between.
-/

namespace Shiroe

open Act (Keeps Leaves)

variable (H : Host)

/-- Mirror an event and fold it into the tables. -/
def foldEvent (env : Json) : Act Exc Db (Option Domain) := do
  mirrorRow H env
  applyEvent H env

/-- Append an event and fold it into the tables. -/
def emit (i : ℕ) (e : EventEnvelope) : Op Json := do
  let env ← append H i e none
  let _ ← onDb (applyEvent H env)
  return env

/-- Append an event, run a statement with the time after the append, and fold the event. -/
def emitWith (i : ℕ) (e : EventEnvelope) (write : String → Act Exc Db Unit) : Op Json := do
  let env ← append H i e none
  let when ← now H
  onDb (write when)
  let _ ← onDb (applyEvent H env)
  return env

/-- `env` is the envelope that `e` becomes at a time, under some id and previous hash. -/
def IsEnvOf (e : EventEnvelope) (timestamp : String) (env : Json) : Prop :=
  ∃ eventId previousHash, env = (e.scrubbed H).prepared H eventId timestamp previousHash

variable {H}

namespace IsEnvOf

variable {e : EventEnvelope} {t : String} {env : Json}

theorem get (h : IsEnvOf H e t env) :
    env.get "event_type" = .str e.eventType ∧ env.get "payload" = e.payload.mapStr H.scrub ∧
      env.get "target" = .ofOption e.target ∧ env.get "timestamp" = .str t := by
  obtain ⟨eventId, previousHash, rfl⟩ := h
  simp [EventEnvelope.prepared, EventEnvelope.fields, EventEnvelope.scrubbed, List.lookup]

theorem eventType (h : IsEnvOf H e t env) : env.get "event_type" = .str e.eventType :=
  h.get.1

theorem payload (h : IsEnvOf H e t env) :
    env.get "payload" = e.payload.mapStr H.scrub :=
  h.get.2.1

theorem target (h : IsEnvOf H e t env) : env.get "target" = .ofOption e.target := h.get.2.2.1

theorem timestamp (h : IsEnvOf H e t env) : env.get "timestamp" = .str t :=
  h.get.2.2.2

theorem payloadOf (h : IsEnvOf H e t env) (hobj : e.payload.isObj = true) :
    payloadOf env = .ok (e.payload.mapStr H.scrub) :=
  payloadOf_eq h.payload (by rw [Json.isObj_mapStr, hobj])

end IsEnvOf

/-! ### What an append leaves alone -/

/-- The parts of the world that writing through the log does not touch. -/
def World.rest (w : World) : Outside × ℕ × ℕ := (w.outside, w.calls, w.objects)

/-- A row that is not mirrored leaves the tables as they are. -/
theorem mirrorRow_error (env : Json) (db : Db) :
    Act.wp (mirrorRow H env) (fun _ _ => True) (fun _ db' => db' = db) db := by
  simp only [mirrorRow, insertEvent, Act.wp_bind, Act.wp_ofExcept, wp_exec]
  repeat' split
  all_goals trivial

/-- The clock only advances. -/
theorem le_tick_stamp (e : EventEnvelope) (w : World) : w.tick ≤ (e.stamp w).tick := by
  unfold EventEnvelope.stamp
  split_ifs <;> simp

/-- An append that raises leaves the tables as they are. -/
theorem append_frame (i : ℕ) (e : EventEnvelope) (cut : Option Cut) (w : World) :
    Act.wp (append H i e cut) (fun _ w' => w'.rest = w.rest ∧ w.tick ≤ w'.tick)
      (fun _ w' => w'.rest = w.rest ∧ w.tick ≤ w'.tick ∧ w'.db = w.db) w := by
  simp only [append, appendScrubbed, reach, modifyDir, onDb, Act.wp_bind, Act.wp_get, Act.wp_ite,
    Act.wp_throw, Act.wp_pure, Act.wp_set, Act.wp_modify, Act.wp_ofExcept, Act.wp_zoom]
  refine ⟨fun _ => ⟨trivial, le_rfl, trivial⟩, fun _ => ⟨fun _ => ⟨trivial, le_rfl, trivial⟩,
    fun _ => ?_⟩⟩
  refine Act.wp_mono (loadHead_spec i cut w) (fun head w₁ hl => ?_) fun _ w' h => ?_
  · have hrest : ((e.scrubbed H).stamp w₁).rest = w.rest := by rw [hl.frame]; rfl
    have htick : w.tick ≤ ((e.scrubbed H).stamp w₁).tick := by
      have h := le_tick_stamp (e.scrubbed H) w₁
      rwa [show w₁.tick = w.tick by rw [hl.frame]] at h
    have hdb : ((e.scrubbed H).stamp w₁).db = w.db := by rw [hl.frame]; rfl
    generalize (e.scrubbed H).stamp w₁ = w₂ at hrest htick hdb ⊢
    -- the frame is compared field by field, not as a world
    simp only [World.rest] at hrest ⊢
    have hall := And.intro hrest (And.intro htick hdb)
    cases validateEnvelope true ((e.scrubbed H).preparedAt H w₁ head) with
    | error x => exact hall
    | ok u =>
      refine ⟨fun _ => hall, fun _ => ⟨fun _ => hall, fun _ => ⟨fun _ => hall, fun _ => ?_⟩⟩⟩
      simp only [hrest, htick, hdb, and_self, true_and]
      exact mirrorRow_error _ w.db
  · rw [h]
    exact ⟨rfl, le_rfl, rfl⟩

/-! ### Emitting -/

/-- An `emit` of `e` that returns `env` has folded it into the tables. -/
structure Emitted (H : Host) (e : EventEnvelope) (w : World) (env : Json) (w' : World) : Prop where
  isEnv : IsEnvOf H e (e.timestampAt H w) env
  folded : ∃ d, foldEvent H env w.db = .ok d w'.db
  rest : w'.rest = w.rest

/-- An `emit` of `e` that raises `x` left the tables as they were, or as the event left them that
they reject. -/
structure NotEmitted (H : Host) (e : EventEnvelope) (w : World) (x : Exc) (w' : World) : Prop where
  db : w'.db = w.db ∨
    ∃ env, IsEnvOf H e (e.timestampAt H w) env ∧ foldEvent H env w.db = .error x w'.db
  rest : w'.rest = w.rest

theorem Loaded.isEnv {i : ℕ} {w w₁ : World} {head : String} (h : Loaded H i w w₁ head)
    (e : EventEnvelope) :
    IsEnvOf H e (e.timestampAt H w) ((e.scrubbed H).preparedAt H w₁ head) :=
  ⟨_, head, by rw [EventEnvelope.preparedAt, h.timestampAt e]⟩

theorem Appended.isEnv {i : ℕ} {e : EventEnvelope} {w w₁ w' : World} {head : String} {env : Json}
    (h : Appended H i e w w₁ w' head env) : IsEnvOf H e (e.timestampAt H w) env := by
  rw [h.env_eq]
  exact h.loaded.isEnv e

/-- What an append does to the tables: it mirrors its event, or nothing. -/
theorem append_tables (i : ℕ) (e : EventEnvelope) (w : World) :
    Act.wp (append H i e none)
      (fun env w' => IsEnvOf H e (e.timestampAt H w) env ∧
        w'.db.exceptMirror = w.db.exceptMirror)
      (fun _ w' => w'.db = w.db) w := by
  refine Act.wp_mono (Act.wp_and (append_spec i e none w) (append_frame i e none w)) ?_ ?_
  · rintro env w' ⟨⟨w₀, head, ha⟩, -⟩
    exact ⟨ha.isEnv, (leaves_mirrorRow env).of_ok ha.mirrored⟩
  · rintro x w' ⟨-, -, -, hdb⟩
    exact hdb

theorem emit_spec (i : ℕ) (e : EventEnvelope) (w : World) :
    Act.wp (emit H i e) (Emitted H e w) (NotEmitted H e w) w := by
  rw [emit, Act.wp_bind]
  refine Act.wp_mono (Act.wp_and (append_spec i e none w) (append_frame i e none w)) ?_ ?_
  · rintro env w₁ ⟨⟨w₀, head, ha⟩, hrest, -⟩
    rw [onDb, Act.wp_bind, Act.wp_zoom]
    unfold Act.wp
    cases hf : applyEvent H env w₁.db with
    | ok d db =>
      refine ⟨ha.isEnv, ⟨d, ?_⟩, hrest⟩
      rw [foldEvent, Act.bind_of_ok ha.mirrored]
      exact hf
    | error x db =>
      refine ⟨Or.inr ⟨env, ha.isEnv, ?_⟩, hrest⟩
      rw [foldEvent, Act.bind_of_ok ha.mirrored]
      exact hf
  · rintro x w₁ ⟨-, hrest, -, hdb⟩
    exact ⟨Or.inl hdb, hrest⟩

/-- What the fold of the event of `e` leaves alone is left alone by its `emit`. -/
theorem leaves_emit {τ : Type} {f : Db → τ} {e : EventEnvelope}
    (h : ∀ t env, IsEnvOf H e t env → Leaves f (foldEvent H env)) (i : ℕ) :
    Leaves (fun w : World => f w.db) (emit H i e) := by
  rintro c w rfl
  refine Act.wp_mono (emit_spec i e w) (fun env w' he => ?_) fun x w' hn => ?_
  · obtain ⟨d, hd⟩ := he.folded
    exact (h _ env he.isEnv).of_ok hd
  · rcases hn.db with hdb | ⟨env, hiso, hf⟩
    · exact congrArg f hdb
    · exact (h _ env hiso).of_error hf

/-- An `emit` by what the fold of its event does, and by what it leaves when it raises. -/
theorem emit_of_fold_part {e : EventEnvelope} {w : World} {Q P : Db → Db → Prop}
    (hP : ∀ db, P db db)
    (hfold : ∀ env, IsEnvOf H e (e.timestampAt H w) env → ∀ db,
      Act.wp (applyEvent H env) (fun _ db' => Q db db') (fun _ db' => P db db') db) (i : ℕ) :
    Act.wp (emit H i e)
      (fun _ w' => w'.rest = w.rest ∧ ∃ db, db.exceptMirror = w.db.exceptMirror ∧ Q db w'.db)
      (fun _ w' => w'.rest = w.rest ∧ ∃ db, db.exceptMirror = w.db.exceptMirror ∧ P db w'.db)
        w := by
  refine Act.wp_mono (emit_spec i e w) ?_ ?_
  · rintro env w' ⟨henv, ⟨d, hf⟩, hrest⟩
    obtain ⟨u, db₁, hm, ha⟩ := Act.bind_eq_ok.1 hf
    exact ⟨hrest, db₁, (leaves_mirrorRow env).of_ok hm, (Act.wp_of_ok ha).1 (hfold env henv db₁)⟩
  · rintro x w' ⟨hdb | ⟨env, henv, hf⟩, hrest⟩
    · exact ⟨hrest, w.db, rfl, hdb ▸ hP w.db⟩
    · refine ⟨hrest, ?_⟩
      cases hm : mirrorRow H env w.db with
      | ok u db₁ =>
        rw [foldEvent, Act.bind_of_ok hm] at hf
        exact ⟨db₁, (leaves_mirrorRow env).of_ok hm,
          (Act.wp_of_error hf).1 (hfold env henv db₁)⟩
      | error y db₁ =>
        rw [foldEvent, Act.bind_of_error hm] at hf
        cases hf
        exact ⟨w'.db, (leaves_mirrorRow env).of_error hm, hP _⟩

/-- An `emit` by what the fold of its event does; a fold that raises writes nothing. -/
theorem emit_of_fold {e : EventEnvelope} {w : World} {Q : Db → Db → Prop}
    (hfold : ∀ env, IsEnvOf H e (e.timestampAt H w) env → ∀ db,
      Act.wp (applyEvent H env) (fun _ db' => Q db db') (fun _ db' => db' = db) db) (i : ℕ) :
    Act.wp (emit H i e)
      (fun _ w' => w'.rest = w.rest ∧ ∃ db, db.exceptMirror = w.db.exceptMirror ∧ Q db w'.db)
      (fun _ w' => w'.rest = w.rest ∧ w'.db.exceptMirror = w.db.exceptMirror) w := by
  refine Act.wp_mono (emit_of_fold_part (P := fun db db' => db' = db) (fun _ => rfl) hfold i)
    (fun _ _ h => h) ?_
  rintro x w' ⟨hrest, db, hdb, hw'⟩
  exact ⟨hrest, by rw [hw', hdb]⟩

/-! ### Emitting with a direct update -/

/-- An `emitWith` of `e` that returns `env` has run its statement and then folded the event. -/
structure EmittedWith (H : Host) (e : EventEnvelope) (write : String → Act Exc Db Unit) (w : World)
    (env : Json) (w' : World) : Prop where
  isEnv : IsEnvOf H e (e.timestampAt H w) env
  folded : ∃ n db₁ db₂ d, db₁.exceptMirror = w.db.exceptMirror ∧
    write (H.clock n) db₁ = .ok () db₂ ∧ applyEvent H env db₂ = .ok d w'.db
  rest : w'.rest = w.rest

/-- An `emitWith` of `e` that raises left the tables as they were, or as the statement or the fold
left them. -/
structure NotEmittedWith (H : Host) (e : EventEnvelope) (write : String → Act Exc Db Unit)
    (w : World) (x : Exc) (w' : World) : Prop where
  db : w'.db = w.db ∨ ∃ env n db₁, IsEnvOf H e (e.timestampAt H w) env ∧
    db₁.exceptMirror = w.db.exceptMirror ∧
    (write (H.clock n) db₁ = .error x w'.db ∨
      ∃ db₂, write (H.clock n) db₁ = .ok () db₂ ∧ applyEvent H env db₂ = .error x w'.db)
  rest : w'.rest = w.rest

theorem emitWith_spec (i : ℕ) (e : EventEnvelope) (write : String → Act Exc Db Unit) (w : World) :
    Act.wp (emitWith H i e write) (EmittedWith H e write w) (NotEmittedWith H e write w) w := by
  rw [emitWith, Act.wp_bind]
  refine Act.wp_mono (Act.wp_and (append_spec i e none w) (append_frame i e none w)) ?_ ?_
  · rintro env w₁ ⟨⟨w₀, head, ha⟩, hrest, -⟩
    have hm : w₁.db.exceptMirror = w.db.exceptMirror :=
      (leaves_mirrorRow env).of_ok ha.mirrored
    simp only [onDb, Act.wp_bind, Act.wp_zoom, wp_now]
    unfold Act.wp
    cases hw : write (H.clock w₁.tick) w₁.db with
    | error x db => exact ⟨Or.inr ⟨env, _, _, ha.isEnv, hm, Or.inl hw⟩, hrest⟩
    | ok u db₂ =>
      simp only
      cases hf : applyEvent H env db₂ with
      | ok d db => exact ⟨ha.isEnv, ⟨_, _, db₂, d, hm, hw, hf⟩, hrest⟩
      | error x db => exact ⟨Or.inr ⟨env, _, _, ha.isEnv, hm, Or.inr ⟨db₂, hw, hf⟩⟩, hrest⟩
  · rintro x w₁ ⟨-, hrest, -, hdb⟩
    exact ⟨Or.inl hdb, hrest⟩

/-- What the statement and the fold of the event of `e` leave alone is left alone by its
`emitWith`. -/
theorem leaves_emitWith {τ : Type} {f : Db → τ} {e : EventEnvelope}
    {write : String → Act Exc Db Unit}
    (hmirror : ∀ db db' : Db, db.exceptMirror = db'.exceptMirror → f db = f db')
    (hwrite : ∀ t, Leaves f (write t))
    (hfold : ∀ t env, IsEnvOf H e t env → Leaves f (applyEvent H env)) (i : ℕ) :
    Leaves (fun w : World => f w.db) (emitWith H i e write) := by
  rintro c w rfl
  refine Act.wp_mono (emitWith_spec i e write w) ?_ ?_
  · rintro env w' ⟨henv, ⟨n, db₁, db₂, d, h₁, h₂, h₃⟩, -⟩
    dsimp only
    rw [(hfold _ env henv).of_ok h₃, (hwrite _).of_ok h₂, hmirror _ _ h₁]
  · rintro x w' ⟨hdb | ⟨env, n, db₁, henv, h₁, h₂ | ⟨db₂, h₂, h₃⟩⟩, -⟩
    · exact congrArg f hdb
    · dsimp only
      rw [(hwrite _).of_error h₂, hmirror _ _ h₁]
    · dsimp only
      rw [(hfold _ env henv).of_error h₃, (hwrite _).of_ok h₂, hmirror _ _ h₁]

end Shiroe
