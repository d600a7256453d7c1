import Shiroe.Storage.Order

/-!
# Writes that happen whole or not at all

A store appends its event and then folds it.  When the event is one that the log takes, the mirror
can hold and the reducers accept whatever the tables hold, an `emit` that raises has raised before
it wrote anything.

* `emit_atomic`, `emitWith_atomic` : an `emit` of such an event leaves the log and the tables as
  they were when it raises;
* `emit_chained` : after an `emit` that returns, a log that was one chain can be appended to by
  every object.
-/

namespace Shiroe

open Act

variable (H : Host)

/-- The log and the tables are as they were. -/
def Untouched (w w' : World) : Prop := w'.dir = w.dir ∧ w'.db = w.db

/-- The mirror can hold the hash that the next event names. -/
def HeadEncodes (w : World) : Prop := H.encodes w.dir.headHash = true

/-- The log takes the event, the mirror can hold it, and its reducer returns. -/
structure Emittable (e : EventEnvelope) : Prop where
  valid : e.Valid
  opened : e.Open
  mirrorable : e.Mirrorable H
  folds : ∀ env db, ReadsAs H e env → Returns (applyEvent H env) db

variable {H}

theorem Emittable.proper {e : EventEnvelope} (he : Emittable H e) : e.Proper H where
  valid := he.valid
  mirrorable := he.mirrorable
  eventId s hs := by
    rw [he.opened.1] at hs
    cases hs
  timestamp s hs := by
    rw [he.opened.2] at hs
    cases hs

theorem HeadEncodes.empty {w : World} (h : w.dir = {}) : HeadEncodes H w := by
  rw [HeadEncodes, h]
  exact H.encodes_ascii genesis (by decide)

theorem HeadEncodes.loaded {i : ℕ} {w w₁ : World} {head : String} (h : HeadEncodes H w)
    (hl : Loaded H i w w₁ head) : H.encodes head = true := by
  cases hi : w.recovered i with
  | false =>
    rw [(hl.fresh hi).2]
    exact encodes_tipHash _
  | true =>
    rw [← hl.headHash, hl.known hi]
    exact h

theorem headEncodes_sealedDir (e : EventEnvelope) (w : World) (head : String) :
    H.encodes (sealedDir H e w head).headHash = true := by
  change H.encodes ("sha256:" ++ _) = true
  rw [H.encodes_append, H.encodes_ascii _ (by decide), H.encodes_ascii _ (H.sha256_ascii _)]
  rfl

/-- An append names a hash of its own or leaves the head to name one. -/
theorem keeps_headEncodes_append (i : ℕ) (e : EventEnvelope) :
    Keeps (HeadEncodes H) (append H i e none) := by
  intro w h
  have hloaded : ∀ {w₁ w' : World} {head : String}, Loaded H i w w₁ head → w'.dir = w₁.dir →
      HeadEncodes H w' := by
    intro w₁ w' head hl hdir
    rw [HeadEncodes, hdir, hl.headHash]
    exact h.loaded hl
  refine wp_mono (append_spec i e none w) ?_ ?_
  · rintro env w' ⟨w₁, head, ha⟩
    rw [HeadEncodes, ha.frame]
    exact headEncodes_sealedDir e w₁ head
  · rintro x w' (⟨hdir, -⟩ | ⟨w₁, head, hl, hdir, -⟩ | ⟨w₁, head, hl, -, hdir, -, -⟩ |
      ⟨w₁, head, hl, -, hdir, -, -⟩)
    · rw [HeadEncodes, hdir]
      exact h
    · exact hloaded hl hdir
    · have hline : (lineDir H e w₁ head).headHash = w₁.dir.headHash := rfl
      rw [HeadEncodes, hdir, hline]
      exact hloaded hl rfl
    · rw [HeadEncodes, hdir]
      exact headEncodes_sealedDir e w₁ head

theorem keeps_headEncodes_onDb {α : Type} (x : Act Exc Db α) :
    Keeps (HeadEncodes H) (onDb x) := by
  intro w h
  rw [wp_onDb]
  unfold Act.wp
  cases x w.db <;> exact h

theorem keeps_headEncodes_readDb {α : Type} (f : Db → Except Exc α) :
    Keeps (HeadEncodes H) (readDb f) := by
  intro w h
  rw [wp_readDb]
  cases f w.db <;> exact h

theorem keeps_headEncodes_now : Keeps (HeadEncodes H) (now H) := by
  intro w h
  rw [wp_now]
  exact h

theorem keeps_headEncodes_emit (i : ℕ) (e : EventEnvelope) :
    Keeps (HeadEncodes H) (emit H i e) :=
  (keeps_headEncodes_append i e).bind fun _ =>
    (keeps_headEncodes_onDb _).bind fun _ => Keeps.pure _

theorem keeps_headEncodes_emitWith (i : ℕ) (e : EventEnvelope) (write : String → Act Exc Db Unit) :
    Keeps (HeadEncodes H) (emitWith H i e write) :=
  (keeps_headEncodes_append i e).bind fun _ => keeps_headEncodes_now.bind fun _ =>
    (keeps_headEncodes_onDb _).bind fun _ => (keeps_headEncodes_onDb _).bind fun _ => Keeps.pure _

/-- **An append of an emittable event raises before it writes**, or not at all. -/
theorem append_atomic (i : ℕ) {e : EventEnvelope} (he : Emittable H e) {w : World}
    (h : HeadEncodes H w) :
    Act.wp (append H i e none) (fun env w' => ReadsAs H e env ∧ HeadEncodes H w')
      (fun _ w' => Untouched w w') w := by
  simp only [append, appendScrubbed, reach, modifyDir, onDb, wp_bind, wp_get, wp_ite, wp_throw,
    wp_pure, wp_set, wp_modify, wp_ofExcept, wp_zoom]
  refine ⟨fun _ => ⟨rfl, rfl⟩, fun _ => ⟨fun h => (by cases h), fun _ => ?_⟩⟩
  refine wp_mono (loadHead_spec i none w) (fun head w₁ hl => ?_) fun _ _ hw => hw ▸ ⟨rfl, rfl⟩
  have hv : validateEnvelope true ((e.scrubbed H).preparedAt H w₁ head) = .ok () :=
    he.valid.scrubbed.validate _ _ _
  rw [hv]
  refine ⟨fun h => (by cases h),
    fun _ => ⟨fun h => (by cases h), fun _ => ⟨fun h => (by cases h), fun _ => ?_⟩⟩⟩
  have henv := hl.isEnv e
  refine wp_mono (mirrorRow_ok henv (he.opened.mirrored (h.loaded hl)) he.mirrorable)
    (fun _ _ _ => ⟨?_, headEncodes_sealedDir e w₁ head⟩) fun _ _ hno => hno.elim
  exact ⟨henv.payloadOf he.valid.payload, henv.eventType, henv.target, _, henv.timestamp,
    he.opened.encodes_timestampAt w⟩

/-- **An `emit` of an emittable event raises before it writes**, or not at all. -/
theorem emit_atomic (i : ℕ) {e : EventEnvelope} (he : Emittable H e) {w : World}
    (h : HeadEncodes H w) :
    Act.wp (emit H i e) (fun _ w' => HeadEncodes H w') (fun _ w' => Untouched w w') w := by
  rw [emit, wp_bind]
  refine wp_mono (append_atomic i he h) ?_ fun _ _ h => h
  rintro env w₁ ⟨hreads, hhead⟩
  rw [wp_bind, wp_onDb]
  exact wp_mono (he.folds env w₁.db hreads) (fun _ _ _ => (wp_pure _).2 hhead) fun _ _ hno =>
    hno.elim

/-- `emit_atomic` with a statement in between that returns whatever the tables hold. -/
theorem emitWith_atomic (i : ℕ) {e : EventEnvelope} (he : Emittable H e) {w : World}
    (h : HeadEncodes H w) {write : String → Act Exc Db Unit}
    (hwrite : ∀ n db, Returns (write (H.clock n)) db) :
    Act.wp (emitWith H i e write) (fun _ w' => HeadEncodes H w') (fun _ w' => Untouched w w')
      w := by
  rw [emitWith, wp_bind]
  refine wp_mono (append_atomic i he h) ?_ fun _ _ h => h
  rintro env w₁ ⟨hreads, hhead⟩
  rw [wp_bind, wp_now, wp_bind, wp_onDb]
  refine wp_mono (hwrite _ _) (fun _ db _ => ?_) fun _ _ hno => hno.elim
  rw [wp_bind, wp_onDb]
  exact wp_mono (he.folds env db hreads) (fun _ _ _ => (wp_pure _).2 hhead) fun _ _ hno =>
    hno.elim

/-! ### Two writes in a row -/

/-- The log is one chain whose tip `head.json` names, and no file of it is later than the one of
the timestamp. -/
structure ChainedAt (H : Host) (w : World) (timestamp : String) : Prop where
  oneChain : OneChain H w
  head : w.dir.headHash = tipHash H w.dir.iterEvents
  last : ∀ p ∈ w.dir.files.map (·.1), p ≤ currentPath timestamp

/-- **After an `emit` that returns, every object can append**, if the log was one chain before. -/
theorem emit_chained (i : ℕ) {e : EventEnvelope} {w : World}
    (h : ChainedAt H w (e.timestampAt H w)) :
    Act.wp (emit H i e) (fun _ w' => Appendable H w') (fun _ _ => True) w := by
  rw [emit, wp_bind]
  refine wp_mono (wp_and (append_spec i e none w) (append_keeps_chain h.oneChain
    { object := i, envelope := e } ⟨Or.inr h.head, h.last⟩)) ?_ fun _ _ _ => trivial
  rintro env w₁ ⟨⟨w₀, head, ha⟩, hchain, htip⟩
  have hlock : w₁.dir.lockfile = false := by
    rw [ha.frame]
    exact ha.loaded.lockfile.trans ha.unlocked
  rw [wp_bind, wp_onDb]
  unfold Act.wp
  cases hf : applyEvent H env w₁.db with
  | ok d db => exact ⟨hlock, hchain.congr rfl, htip⟩
  | error x db => trivial

/-- In a log that every object can append to, an `emitWith` returns. -/
theorem Appendable.emitWith_returns {w : World} (h : Appendable H w) (i : ℕ) {e : EventEnvelope}
    (he : Emittable H e) {write : String → Act Exc Db Unit}
    (hwrite : ∀ n db, Returns (write (H.clock n)) db) : Returns (emitWith H i e write) w := by
  obtain ⟨env, w₁, hok⟩ := h.append_returns i he.proper
  obtain ⟨w₀, head, ha⟩ := (wp_of_ok hok).1 (append_spec i e none w)
  have henv := ha.isEnv
  have hreads : ReadsAs H e env := ⟨henv.payloadOf he.valid.payload, henv.eventType, henv.target, _,
    henv.timestamp, he.opened.encodes_timestampAt w⟩
  unfold Returns
  rw [emitWith, wp_bind, wp_of_ok hok, wp_bind, wp_now, wp_bind, wp_onDb]
  refine wp_mono (hwrite _ _) (fun _ db _ => ?_) fun _ _ hno => hno
  rw [wp_bind, wp_onDb]
  exact wp_mono (he.folds env db hreads) (fun _ _ _ => (wp_pure _).2 trivial) fun _ _ hno =>
    hno

end Shiroe
