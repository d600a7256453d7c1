import Shiroe.Storage.Replay

/-!
# What the log and the tables keep together

A fact about the tables survives a replay when the log can only lead to it.  `Kept P J` says that
every event of the log meets `P` and that the tables meet `J`; where a fold of an event that meets
`P` keeps `J`, this is kept by every write through the log and by every replay of it, in whatever
order the files of the log come.

* `Folds.emit`, `Folds.emitWith` : writing an event that meets `P`;
* `Folds.rebuild` : `shiroe state rebuild`.
-/

namespace Shiroe

open Act

/-- Every event of the log meets `P`, and the tables meet `J`. -/
structure Kept (P : Json → Prop) (J : Db → Prop) (w : World) : Prop where
  log : ∀ env ∈ w.dir.iterEvents, P env
  tables : J w.db

/-- The fold of an event that meets `P` keeps `J`; empty tables meet it, and the mirror does not
matter. -/
structure Folds (H : Host) (P : Json → Prop) (J : Db → Prop) : Prop where
  fold : ∀ env, P env → Keeps J (applyEvent H env)
  mirror : ∀ {db db' : Db}, db'.exceptMirror = db.exceptMirror → J db → J db'
  cleared : ∀ db, J (clearTables db)

variable (H : Host)

/-- `state rebuild`: replay the log into the tables; a replay that raises is rolled back. -/
def rebuild (w : World) : World :=
  match replayInto H w.dir w.db with
  | .ok _ db => { w with db }
  | .error _ _ => w

variable {H} {P : Json → Prop} {J : Db → Prop}

/-- An append puts its event among the others, or leaves the log as it is. -/
theorem append_log (i : ℕ) {e : EventEnvelope} (cut : Option Cut)
    (he : ∀ t env, IsEnvOf H e t env → P env) :
    Keeps (fun w : World => ∀ env ∈ w.dir.iterEvents, P env) (append H i e cut) := by
  intro w hw
  simp only [append, appendScrubbed, reach, modifyDir, onDb, wp_bind, wp_get, wp_ite, wp_throw,
    wp_pure, wp_set, wp_modify, wp_ofExcept, wp_zoom]
  refine ⟨fun _ => hw, fun _ => ⟨fun _ => hw, fun _ => ?_⟩⟩
  refine wp_mono (loadHead_spec i cut w) (fun head w₁ hl => ?_) fun _ w' h => by rwa [h]
  have hold : ∀ env ∈ ((e.scrubbed H).stamp w₁).dir.iterEvents, P env := by
    change ∀ env ∈ w₁.dir.iterEvents, P env
    rw [LogDir.iterEvents_congr hl.files]
    exact hw
  have henv : P ((e.scrubbed H).preparedAt H w₁ head) := he _ _ (hl.isEnv e)
  have hdir : ((e.scrubbed H).stamp w₁).dir = w₁.dir := rfl
  -- the line of the event goes somewhere into the log
  have hnew : ∀ t, ∀ env ∈ (((e.scrubbed H).stamp w₁).dir.appendEvent t
      ((e.scrubbed H).preparedAt H w₁ head)).iterEvents, P env := by
    intro t env hmem
    rcases List.mem_append.1 ((appendLine_perm _ _ _).mem_iff.1 hmem) with hmem | hmem
    · exact hold env hmem
    · rw [List.mem_singleton.1 hmem]
      exact henv
  cases validateEnvelope true ((e.scrubbed H).preparedAt H w₁ head) with
  | error x => exact hold
  | ok u =>
    exact ⟨fun _ => hold, fun _ => ⟨fun _ => hnew _, fun _ => ⟨fun _ => hnew _, fun _ =>
      Keeps.const _ _ _ (hnew _)⟩⟩⟩

/-- A computation on the tables leaves the log alone. -/
theorem onDb_kept {α : Type} {x : Act Exc Db α} (hx : Keeps J x) : Keeps (Kept P J) (onDb x) :=
  Keeps.zoom hx (fun _ h => h.tables) fun _ _ h hJ => ⟨h.log, hJ⟩

namespace Folds

variable (hF : Folds H P J)

include hF

theorem append (i : ℕ) {e : EventEnvelope} (he : ∀ t env, IsEnvOf H e t env → P env) :
    Keeps (Kept P J) (append H i e none) := by
  intro w hw
  refine wp_mono (wp_and (append_log i none he w hw.log) (append_tables i e w)) ?_ ?_
  · rintro env w' ⟨hlog, -, hdb⟩
    exact ⟨hlog, hF.mirror hdb hw.tables⟩
  · rintro x w' ⟨hlog, hdb⟩
    exact ⟨hlog, hdb ▸ hw.tables⟩

/-- The event that an append returns is the one it was given. -/
theorem append_then (i : ℕ) {e : EventEnvelope} (he : ∀ t env, IsEnvOf H e t env → P env)
    {α : Type} {f : Json → Op α} (hf : ∀ t env, IsEnvOf H e t env → Keeps (Kept P J) (f env)) :
    Keeps (Kept P J) (Shiroe.append H i e none >>= f) := by
  intro w hw
  rw [wp_bind]
  refine wp_mono (wp_and (hF.append i he w hw) (append_tables i e w)) ?_ fun _ _ h => h.1
  rintro env w' ⟨hw', henv, -⟩
  exact hf _ env henv w' hw'

/-- **Writing an event that meets `P`** keeps what the log and the tables keep together. -/
theorem emit (i : ℕ) {e : EventEnvelope} (he : ∀ t env, IsEnvOf H e t env → P env) :
    Keeps (Kept P J) (emit H i e) :=
  hF.append_then i he fun t env henv =>
    Keeps.bind (onDb_kept (hF.fold env (he t env henv))) fun _ => Keeps.pure _

theorem emitWith (i : ℕ) {e : EventEnvelope} (he : ∀ t env, IsEnvOf H e t env → P env)
    {write : String → Act Exc Db Unit} (hwrite : ∀ t, Keeps J (write t)) :
    Keeps (Kept P J) (emitWith H i e write) :=
  hF.append_then i he fun t env henv =>
    Keeps.bind (fun _ h => wp_now.2 ⟨h.log, h.tables⟩) fun when =>
      Keeps.bind (onDb_kept (hwrite when)) fun _ =>
        Keeps.bind (onDb_kept (hF.fold env (he t env henv))) fun _ => Keeps.pure _

/-- A replay ends with tables that meet `J`, whatever they held before. -/
theorem replayInto {d : LogDir} (hlog : ∀ env ∈ d.iterEvents, P env) {db db' : Db}
    {report : ReplayReport} (h : replayInto H d db = .ok report db') : J db' := by
  have hloop : ∀ log : List Json, (∀ env ∈ log, P env) → ∀ r : ReplayReport,
      Keeps J (log.foldlM (replayEvent H) r) := by
    intro log
    induction log with
    | nil => exact fun _ r => Keeps.pure r
    | cons env log ih =>
      intro hlog r
      rw [List.foldlM_cons]
      refine Keeps.bind ?_ fun r' => ih (fun env h => hlog env (List.mem_cons_of_mem _ h)) r'
      refine Keeps.bind ?_ fun _ => Keeps.bind (Keeps.ofExcept _) fun _ =>
        Keeps.bind (hF.fold env (hlog env List.mem_cons_self)) fun _ => Keeps.pure _
      intro db hJ
      exact wp_mono ((leaves_mirrorRow env).wp db) (fun _ _ h => hF.mirror h hJ)
        fun _ _ h => hF.mirror h hJ
  have hwp : Act.wp (Shiroe.replayInto H d) (fun _ => J) (fun _ _ => True) db := by
    unfold Shiroe.replayInto
    rw [wp_bind, wp_ofExcept]
    cases verifyChain H d with
    | error x => trivial
    | ok u =>
      simp only [wp_bind, wp_modify]
      exact wp_mono (hloop _ hlog {} _ (hF.cleared db)) (fun _ _ h => h) fun _ _ _ => trivial
  exact (wp_of_ok h).1 hwp

/-- **A rebuild keeps what the log and the tables keep together.** -/
theorem rebuild {w : World} (hw : Kept P J w) : Kept P J (rebuild H w) := by
  unfold Shiroe.rebuild
  split
  · rename_i report db h
    exact ⟨hw.log, hF.replayInto hw.log h⟩
  · exact hw

end Folds

end Shiroe
