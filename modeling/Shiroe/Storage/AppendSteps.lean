import Shiroe.Lib.Mutex
import Shiroe.Storage.Recovery

/-!
# The statements of an append

`EventLog.append` as the sequence of what it asks of its object, of the files, of the clock and the
ids, and of the tables, for processes that execute it beside each other.

* `run_appendProg` : executed without a break, the statements do what `append` does.
-/

namespace Shiroe

variable (H : Host)

/-! ### Statements -/

/-- A statement of `append`: on the object, the files, the ids and the clock, and the tables. -/
inductive LogStmt where
  /-- `self._recovered`. -/
  | isRecovered (object : ℕ)
  /-- `self._recovered = True`. -/
  | setRecovered (object : ℕ)
  /-- `sorted(self.dir.rglob("events.jsonl"))`. -/
  | listFiles
  /-- The lines of one file. -/
  | readFile (path : List String)
  /-- `head.json`, if it exists. -/
  | readHead
  /-- `_write_head`. -/
  | writeHead (head : String) (lastEventId : Json)
  /-- `uuid.uuid4().hex`. -/
  | drawId
  /-- `datetime.now`. -/
  | readClock
  /-- `atomic_append` to the file of the timestamp. -/
  | appendLine (timestamp : String) (env : Json)
  /-- `_mirror_row` and the commit. -/
  | mirror (env : Json)

/-- What comes back. -/
def LogStmt.Answer : LogStmt → Type
  | .isRecovered _ => Bool
  | .setRecovered _ => Unit
  | .listFiles => List (List String)
  | .readFile _ => Except Exc (List Json)
  | .readHead => Option Head
  | .writeHead _ _ => Unit
  | .drawId => String
  | .readClock => String
  | .appendLine _ _ => Unit
  | .mirror _ => Except Exc Unit

/-- Execute a statement. -/
def LogStmt.exec : (m : LogStmt) → World → m.Answer × World
  | .isRecovered i, w => (w.recovered i, w)
  | .setRecovered i, w => ((), { w with recovered := Function.update w.recovered i true })
  | .listFiles, w => (w.dir.files.map (·.1), w)
  | .readFile path, w =>
    match w.dir.files.find? (·.1 = path) with
    | some f => (.ok f.2, w)
    | none => (.error .osError, w)
  | .readHead, w => (w.dir.head, w)
  | .writeHead head lastEventId, w => ((), { w with dir := w.dir.writeHead head lastEventId })
  | .drawId, w => (H.uuid w.drawn, { w with drawn := w.drawn + 1 })
  | .readClock, w => (H.clock w.tick, { w with tick := w.tick + 1 })
  | .appendLine timestamp env, w => ((), { w with dir := w.dir.appendEvent timestamp env })
  | .mirror env, w =>
    match mirrorRow H env w.db with
    | .ok _ db => (.ok (), { w with db })
    | .error e db => (.error e, { w with db })

/-! ### The program -/

/-- A program of a process. -/
abbrev LogProg (α : Type) := Prog LogStmt LogStmt.Answer Exc α

/-- Execute one statement. -/
def LogProg.ask (m : LogStmt) : LogProg m.Answer := Prog.issue m

/-- Raise here if the append is cut short at `c`. -/
def LogProg.reach (cut : Option Cut) (c : Cut) (e : Exc) : LogProg Unit :=
  if cut = some c then .raise e else pure ()

/-- `_write_head`, which fails if the append is cut short at `c`. -/
def writeHeadProg (cut : Option Cut) (c : Cut) (head : String) (lastEventId : Json) :
    LogProg Unit := do
  LogProg.reach cut c .osError
  LogProg.ask (.writeHead head lastEventId)

/-- The pass over one event: the hash, its id, and the hashes so far. -/
def tailStep (acc : String × Json × List Json) (env : Json) :
    Except Exc (String × Json × List Json) := do
  let hash ← checkLink H acc.1 env
  return (hash, env.get "event_id", acc.2.2 ++ [env.get "hash"])

/-- `_validated_tail`, over the files from `paths` on. -/
def validatedTailProg (acc : String × Json × List Json) :
    List (List String) → LogProg (String × Json × List Json)
  | [] => pure acc
  | path :: paths => do
    let lines : Except Exc (List Json) ← LogProg.ask (.readFile path)
    let lines ← Prog.ofExcept lines
    let acc ← Prog.ofExcept (lines.foldlM (tailStep H) acc)
    validatedTailProg acc paths

/-- `_recover_head`. -/
def recoverHeadProg (cut : Option Cut) : LogProg Unit := do
  let paths : List (List String) ← LogProg.ask .listFiles
  let (tail, tailEventId, hashes) ← validatedTailProg H (genesis, .str "", []) paths
  let head : Option Head ← LogProg.ask .readHead
  match head with
  | none =>
    if tail ≠ genesis then writeHeadProg cut .recover tail tailEventId else pure ()
  | some h =>
    if h.head = tail then pure ()
    else if h.head = genesis ∨ .str h.head ∈ hashes then
      writeHeadProg cut .recover tail tailEventId
    else .raise (.headAbsent h.head)

/-- The first part of `_load_head`: the object `i` reconciles the head, if it has not done so. -/
def reconcileProg (i : ℕ) (cut : Option Cut) : LogProg Unit := do
  let recovered : Bool ← LogProg.ask (.isRecovered i)
  if recovered = false then do
    recoverHeadProg H cut
    LogProg.ask (.setRecovered i)
  else pure ()

/-- `_load_head` of the object `i`. -/
def loadHeadProg (i : ℕ) (cut : Option Cut) : LogProg String := do
  reconcileProg H i cut
  let head : Option Head ← LogProg.ask .readHead
  return head.elim genesis Head.head

/-- The id that an envelope gets: its own, or a new one. -/
def eventIdProg (e : EventEnvelope) : LogProg String :=
  match given e.eventId with
  | some id => pure id
  | none => do
    let hex : String ← LogProg.ask .drawId
    return "evt_" ++ slice hex 0 16

/-- The timestamp that an envelope gets: its own, or that of the clock. -/
def timestampProg (e : EventEnvelope) : LogProg String :=
  match given e.timestamp with
  | some t => pure t
  | none => LogProg.ask .readClock

/-- The part of `append` that stores the envelope that it has sealed. -/
def storeProg (cut : Option Cut) (timestamp : String) (env : Json) (hash eventId : String) :
    LogProg Json := do
  Prog.ofExcept (validateEnvelope true env)
  LogProg.reach cut .write .osError
  LogProg.ask (.appendLine timestamp env)
  writeHeadProg cut .head hash (.str eventId)
  LogProg.reach cut .mirror .osError
  let mirrored : Except Exc Unit ← LogProg.ask (.mirror env)
  Prog.ofExcept mirrored
  return env

/-- The part of `append` after the head is loaded. -/
def sealProg (e : EventEnvelope) (cut : Option Cut) (head : String) : LogProg Json := do
  let eventId ← eventIdProg e
  let timestamp ← timestampProg e
  storeProg cut timestamp (e.prepared H eventId timestamp head) (e.hash H eventId timestamp head)
    eventId

/-- The body of `append` under the lock, for an envelope whose payload is scrubbed. -/
def appendProg (i : ℕ) (e : EventEnvelope) (cut : Option Cut) : LogProg Json := do
  let head ← loadHeadProg H i cut
  sealProg H e cut head

/-! ### The statements without a break -/

variable {H}

theorem get_bind_apply {α : Type} (f : World → Op α) (w : World) :
    ((get : Op World) >>= f) w = f w w := rfl

theorem set_bind_apply {α : Type} (w' : World) (f : PUnit → Op α) (w : World) :
    ((set w' : Op PUnit) >>= f) w = f PUnit.unit w' := rfl

theorem run_reach (cut : Option Cut) (c : Cut) (e : Exc) :
    (LogProg.reach cut c e).run (LogStmt.exec H) = reach cut c e := by
  unfold LogProg.reach reach
  split_ifs <;> rfl

theorem run_ofExcept {α : Type} (r : Except Exc α) :
    (Prog.ofExcept r : LogProg α).run (LogStmt.exec H) = Act.ofExcept r := by
  cases r <;> rfl

/-- The passes over the events add up what `validated_tail` returns. -/
theorem foldlM_tailStep (log : List Json) :
    log.foldlM (tailStep H) (genesis, .str "", []) =
      (do
        let tail ← log.foldlM (checkLink H) genesis
        return (tail, log.getLast?.elim (.str "") (·.get "event_id"), log.map (·.get "hash"))) := by
  induction log using List.reverseRecOn with
  | nil => rfl
  | append_singleton log env ih =>
    rw [List.foldlM_append, ih, List.foldlM_append]
    cases log.foldlM (checkLink H) genesis with
    | error e => rfl
    | ok tail =>
      simp only [bind, Except.bind, pure, Except.pure, List.foldlM_cons, List.foldlM_nil, tailStep]
      cases checkLink H tail env <;> simp

/-- A file is found under its path. -/
theorem InOrder.find?_eq {files : List (List String × List Json)} (hord : InOrder files)
    {f : List String × List Json} (hf : f ∈ files) : files.find? (·.1 = f.1) = some f := by
  induction files with
  | nil => cases hf
  | cons g files ih =>
    simp only [InOrder, List.map_cons, List.pairwise_cons] at hord
    rcases List.mem_cons.1 hf with rfl | hf
    · rw [List.find?_cons_of_pos (by simp)]
    · have hlt : g.1 < f.1 := hord.1 _ (List.mem_map_of_mem hf)
      rw [List.find?_cons_of_neg (by simpa using hlt.ne)]
      exact ih hord.2 hf

/-- The pass over the files from some of them on. -/
theorem run_validatedTailProg {w : World} (hord : InOrder w.dir.files)
    {files : List (List String × List Json)} (hsub : files ⊆ w.dir.files)
    (acc : String × Json × List Json) :
    (validatedTailProg H acc (files.map (·.1))).run (LogStmt.exec H) w =
      Act.ofExcept ((files.flatMap (·.2)).foldlM (tailStep H) acc) w := by
  induction files generalizing acc with
  | nil => rfl
  | cons f files ih =>
    have hread : LogStmt.exec H (.readFile f.1) w = (.ok f.2, w) := by
      simp only [LogStmt.exec, hord.find?_eq (hsub List.mem_cons_self)]
    refine (Prog.run_issue_bind (LogStmt.readFile f.1) _ w).trans ?_
    rw [hread]
    change ((Prog.ofExcept (f.2.foldlM (tailStep H) acc) >>= fun acc' =>
      validatedTailProg H acc' (files.map (·.1)) : LogProg _)).run (LogStmt.exec H) w = _
    rw [Prog.run_bind, run_ofExcept, List.flatMap_cons, List.foldlM_append]
    cases f.2.foldlM (tailStep H) acc with
    | error e => rfl
    | ok acc' => exact ih (fun g hg => hsub (List.mem_cons_of_mem _ hg)) acc'

theorem run_writeHeadProg (cut : Option Cut) (c : Cut) (head : String) (lastEventId : Json) :
    (writeHeadProg cut c head lastEventId).run (LogStmt.exec H) =
      (do
        reach cut c .osError
        modifyDir (·.writeHead head lastEventId) : Op Unit) := by
  refine (Prog.run_bind _ _).trans ?_
  rw [run_reach]
  rfl

theorem run_recoverHeadProg {w : World} (hord : InOrder w.dir.files) (cut : Option Cut) :
    (recoverHeadProg H cut).run (LogStmt.exec H) w = recoverHead H cut w := by
  refine (Prog.run_issue_bind LogStmt.listFiles _ w).trans ?_
  refine Eq.trans ?_ (get_bind_apply _ w).symm
  refine Prog.run_bind_congr ?_ ?_
  · rw [validatedTail, LogDir.iterEvents, ← foldlM_tailStep]
    exact run_validatedTailProg hord (List.Subset.refl _) _
  · rintro ⟨tail, tailEventId, hashes⟩ w' hw'
    obtain rfl : w = w' := by
      cases hv : validatedTail H w.dir <;> rw [hv] at hw' <;> cases hw'
      rfl
    refine (Prog.run_issue_bind LogStmt.readHead _ w).trans ?_
    change (Prog.run (LogStmt.exec H) (match w.dir.head with | none => _ | some h => _)) w = _
    cases w.dir.head with
    | none =>
      dsimp only
      rw [Prog.run_ite]
      split_ifs
      · exact congrFun (run_writeHeadProg cut .recover tail tailEventId) w
      · rfl
    | some h =>
      dsimp only
      rw [Prog.run_ite, Prog.run_ite]
      split_ifs
      · rfl
      · exact congrFun (run_writeHeadProg cut .recover tail tailEventId) w
      · rfl

theorem run_loadHeadProg {w : World} (hord : InOrder w.dir.files) (i : ℕ) (cut : Option Cut) :
    (loadHeadProg H i cut).run (LogStmt.exec H) w = loadHead H i cut w := by
  have hrec : (reconcileProg H i cut).run (LogStmt.exec H) w =
      Prog.run (LogStmt.exec H) (if w.recovered i = false then do
        recoverHeadProg H cut
        LogProg.ask (.setRecovered i)
      else pure ()) w := rfl
  refine Eq.trans ?_ (get_bind_apply _ w).symm
  dsimp only
  by_cases hi : w.recovered i = false
  · rw [if_pos hi] at hrec ⊢
    rw [← bind_assoc]
    refine Prog.run_bind_congr (hrec.trans ?_) fun _ _ _ => rfl
    exact Prog.run_bind_congr (run_recoverHeadProg hord cut) fun _ _ _ => rfl
  · rw [if_neg hi] at hrec ⊢
    refine (congrFun (Prog.run_bind _ _) w).trans ?_
    rw [Act.bind_of_ok hrec]
    rfl

theorem run_eventIdProg (e : EventEnvelope) (w : World) :
    (eventIdProg e).run (LogStmt.exec H) w = .ok (e.eventIdAt H w)
      { w with drawn := if (given e.eventId).isSome then w.drawn else w.drawn + 1 } := by
  unfold eventIdProg EventEnvelope.eventIdAt
  cases given e.eventId <;> rfl

theorem run_timestampProg (e : EventEnvelope) (w : World) :
    (timestampProg e).run (LogStmt.exec H) w = .ok (e.timestampAt H w)
      { w with tick := if (given e.timestamp).isSome then w.tick else w.tick + 1 } := by
  unfold timestampProg EventEnvelope.timestampAt
  cases given e.timestamp <;> rfl

theorem run_storeProg (cut : Option Cut) (timestamp : String) (env : Json) (hash eventId : String) :
    (storeProg cut timestamp env hash eventId).run (LogStmt.exec H) =
      (do
        Act.ofExcept (validateEnvelope true env)
        reach cut .write .osError
        modifyDir (·.appendEvent timestamp env)
        reach cut .head .osError
        modifyDir (·.writeHead hash (.str eventId))
        reach cut .mirror .osError
        onDb (mirrorRow H env)
        return env : Op Json) := by
  funext w
  refine Prog.run_bind_congr (congrFun (run_ofExcept _) _) fun _ w₁ _ => ?_
  refine Prog.run_bind_congr (congrFun (run_reach cut .write .osError) _) fun _ w₂ _ => ?_
  refine Prog.run_bind_congr (c := modifyDir _) rfl fun _ w₃ _ => ?_
  refine Eq.trans ?_ (congrFun (bind_assoc (reach cut .head .osError)
    (fun _ => modifyDir (·.writeHead hash (.str eventId))) _) w₃)
  refine Prog.run_bind_congr (congrFun (run_writeHeadProg cut .head _ _) _) fun _ w₄ _ => ?_
  refine Prog.run_bind_congr (congrFun (run_reach cut .mirror .osError) _) fun _ w₅ _ => ?_
  refine (Prog.run_issue_bind (LogStmt.mirror env) _ w₅).trans ?_
  change Prog.run (LogStmt.exec H) ((Prog.ofExcept (LogStmt.exec H (.mirror env) w₅).1 >>= fun _ =>
    pure env : LogProg Json)) (LogStmt.exec H (.mirror env) w₅).2 = _
  cases hm : mirrorRow H env w₅.db with
  | ok u db =>
    have hstmt : LogStmt.exec H (.mirror env) w₅ = (.ok (), { w₅ with db }) := by
      simp only [LogStmt.exec, hm]
    have hdb : onDb (mirrorRow H env) w₅ = .ok () { w₅ with db } := by
      simp only [onDb, Act.zoom, hm]
    rw [hstmt, Act.bind_of_ok hdb]
    rfl
  | error e db =>
    have hstmt : LogStmt.exec H (.mirror env) w₅ = (.error e, { w₅ with db }) := by
      simp only [LogStmt.exec, hm]
    have hdb : onDb (mirrorRow H env) w₅ = .error e { w₅ with db } := by
      simp only [onDb, Act.zoom, hm]
    rw [hstmt, Act.bind_of_error hdb]
    rfl

theorem run_sealProg (e : EventEnvelope) (cut : Option Cut) (head : String) (w : World) :
    (sealProg H e cut head).run (LogStmt.exec H) w =
      (storeProg cut (e.timestampAt H w) (e.preparedAt H w head) (e.hashAt H w head)
        (e.eventIdAt H w)).run (LogStmt.exec H) (e.stamp w) := by
  refine (congrFun (Prog.run_bind _ _) w).trans ?_
  rw [Act.bind_of_ok (run_eventIdProg e w)]
  refine (congrFun (Prog.run_bind _ _) _).trans ?_
  rw [Act.bind_of_ok (run_timestampProg e _)]
  rfl

/-- **Executed without a break, the statements do what `append` does** when the lock is free. -/
theorem run_appendProg {w : World} (hlock : w.dir.lockfile = false) (hord : InOrder w.dir.files)
    (i : ℕ) (e : EventEnvelope) {cut : Option Cut} (hcut : cut ≠ some .acquire) :
    (appendProg H i (e.scrubbed H) cut).run (LogStmt.exec H) w = append H i e cut w := by
  have happend : append H i e cut w = (loadHead H i cut >>= fun head => (do
      let w ← get
      let env := (e.scrubbed H).preparedAt H w head
      set ((e.scrubbed H).stamp w)
      Act.ofExcept (validateEnvelope true env)
      reach cut .write .osError
      modifyDir (·.appendEvent ((e.scrubbed H).timestampAt H w) env)
      reach cut .head .osError
      modifyDir (·.writeHead ((e.scrubbed H).hashAt H w head)
        (.str ((e.scrubbed H).eventIdAt H w)))
      reach cut .mirror .osError
      onDb (mirrorRow H env)
      return env : Op Json)) w := by
    refine (get_bind_apply _ w).trans ?_
    dsimp only
    rw [hlock, if_neg (by decide), reach, if_neg hcut]
    rfl
  rw [happend]
  refine Prog.run_bind_congr (run_loadHeadProg hord i cut) fun head w₁ _ => ?_
  rw [run_sealProg, run_storeProg]
  refine Eq.trans ?_ (get_bind_apply _ w₁).symm
  symm
  exact set_bind_apply _ _ w₁

end Shiroe
