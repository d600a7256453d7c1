import Shiroe.Lib.JsonLine
import Shiroe.Storage.FirstAppend

/-!
# The texts of the log

The files `events.jsonl` are texts.  `iter_events` reads them line by line and raises at a line that
is not JSON; `append` writes the text of an event and a newline at the end of a file, whatever the
file ends with.  `LogDir` holds the lines that are read; here `append` works on the texts.

* `append_lifts` : on texts that are read, the append of a line does what it does on the lines,
  but for the text it writes;
* `first_append_iff` : the first append of a fresh object adds its event to a chain iff nothing but
  blanks stands behind the last line break of the file it writes to, and writes nothing to texts
  that are not read, are no chain, or do not hold the event that the head names.
-/

namespace Shiroe

/-! ### Reading the texts -/

/-- A newline of a text that is opened with universal newlines. -/
def isBreak (c : Char) : Bool := c = '\n' || c = '\r'

/-- `json.loads`: it reads what `json.dumps` wrote, and no text that holds an object behind a
value. -/
structure JsonReader where
  /-- The value of a text; none when it raises. -/
  loads : List Char → Option Json
  loads_dumps : ∀ j : Json, loads (j.dumps true) = some j.reread
  loads_extra : ∀ {s b : List Char} (d : List (String × Json)), (loads s).isSome = true →
    (∀ c ∈ b, isSpace c = true) → loads (s ++ b ++ Json.dumps true (.obj d)) = none

/-- The files under `memory/events` in path order, each with its text; without one where its bytes
are not UTF-8. -/
abbrev LogTexts := List (List String × Option (List Char))

namespace JsonReader

variable (R : JsonReader) (H : Host)

/-- `json.loads(line)`. -/
def readLine (line : List Char) : Except Exc Json :=
  match R.loads line with
  | some j => .ok j
  | none => .error (.jsonDecode (String.ofList line))

/-- What the lines of a file are read as, one after the other. -/
def readFile : Option (List Char) → List (Except Exc Json)
  | none => [.error (.valueError "'utf-8' codec can't decode")]
  | some text => (TextLines.lines isSpace isBreak text).map R.readLine

/-- `iter_events`. -/
def iterEvents (texts : LogTexts) : List (Except Exc Json) :=
  texts.flatMap fun f => R.readFile f.2

/-- The walk along the log, which ends at the first line that is not read or breaks the chain. -/
def walk (texts : LogTexts) : Except Exc String :=
  (R.iterEvents texts).foldlM (fun prev line => line >>= checkLink H prev) genesis

/-- `_validated_tail`. -/
def validatedTail (texts : LogTexts) : Except Exc (String × Json × List Json) := do
  let tail ← R.walk H texts
  let log ← (R.iterEvents texts).mapM id
  return (tail, log.getLast?.elim (.str "") (·.get "event_id"), log.map (·.get "hash"))

/-- `verify_chain`. -/
def verifyChain (texts : LogTexts) (head : Option Head) : Except Exc Unit := do
  let prev ← R.walk H texts
  if R.iterEvents texts ≠ [] then
    match head with
    | none => return
    | some h => if h.head ≠ prev then throw (.headMismatch h.head prev)

end JsonReader

/-! ### Appending to the texts -/

/-- The program's world over texts; the list of files that `world` has itself is not used. -/
structure TextWorld where
  texts : LogTexts
  world : World

/-- A computation over the texts and the world. -/
abbrev TextOp (α : Type) := Act Exc TextWorld α

/-- Run a computation that does not touch the files of the log. -/
def onWorld {α : Type} (x : Op α) : TextOp α :=
  Act.zoom TextWorld.world (fun w t => { t with world := w }) x

/-- `atomic_append`: the line at the end of the text of the file under `path`. -/
def appendText (path : List String) (line : List Char) : LogTexts → LogTexts
  | [] => [(path, some line)]
  | (p, text) :: texts =>
    if path = p then (p, text.map (· ++ line)) :: texts
    else if path < p then (path, some line) :: (p, text) :: texts
    else (p, text) :: appendText path line texts

/-- `_canonical_json(env) + "\n"`. -/
def lineOf (env : Json) : List Char := env.dumps true ++ ['\n']

namespace TextWorld

variable (R : JsonReader) (H : Host)

/-- `_recover_head`. -/
def recoverHead : TextOp Unit := do
  let t ← get
  let (tail, tailEventId, hashes) ← Act.ofExcept (R.validatedTail H t.texts)
  match t.world.dir.head with
  | none => if tail ≠ genesis then onWorld (modifyDir (·.writeHead tail tailEventId))
  | some h =>
    if h.head = tail then pure ()
    else if h.head = genesis ∨ .str h.head ∈ hashes then
      onWorld (modifyDir (·.writeHead tail tailEventId))
    else throw (.headAbsent h.head)

/-- `_load_head` of the `EventLog` object `i`. -/
def loadHead (i : ℕ) : TextOp String := do
  let t ← get
  if t.world.recovered i = false then do
    recoverHead R H
    onWorld (modify fun w => { w with recovered := Function.update w.recovered i true })
  let t ← get
  return t.world.dir.headHash

/-- `EventLog.append` from the loaded head on. -/
def store (envelope : EventEnvelope) (head : String) : TextOp Json := do
  let t ← get
  let env := envelope.preparedAt H t.world head
  set { t with world := envelope.stamp t.world }
  Act.ofExcept (validateEnvelope true env)
  let path := currentPath (envelope.timestampAt H t.world)
  modify fun t => { t with texts := appendText path (lineOf env) t.texts }
  onWorld do
    modifyDir (·.writeHead (envelope.hashAt H t.world head) (.str (envelope.eventIdAt H t.world)))
    onDb (mirrorRow H env)
  return env

/-- `EventLog.append` of the object `i`. -/
def append (i : ℕ) (envelope : EventEnvelope) : TextOp Json := do
  let envelope := envelope.scrubbed H
  let t ← get
  if t.world.dir.lockfile then throw .lockHeld
  let head ← loadHead R H i
  store H envelope head

end TextWorld

/-! ### What the texts are read as -/

variable {R : JsonReader} {H : Host}

/-- Every line of every file is read, as the line that `files` has for it. -/
def ReadAs (R : JsonReader) (texts : LogTexts) (files : List (List String × List Json)) : Prop :=
  List.Forall₂ (fun f g => f.1 = g.1 ∧ R.readFile f.2 = g.2.map Except.ok) texts files

/-- The world with other files. -/
def World.withFiles (w : World) (files : List (List String × List Json)) : World :=
  { w with dir := { w.dir with files := files } }

theorem World.withFiles_self {w : World} {files : List (List String × List Json)}
    (h : w.dir.files = files) (files' : List (List String × List Json)) :
    (w.withFiles files').withFiles files = w := by
  subst h
  rfl

section

variable (e : EventEnvelope) (w : World) (files : List (List String × List Json))

theorem stamp_withFiles : e.stamp (w.withFiles files) = (e.stamp w).withFiles files := rfl

theorem preparedAt_withFiles (head : String) :
    e.preparedAt H (w.withFiles files) head = e.preparedAt H w head := rfl

theorem timestampAt_withFiles : e.timestampAt H (w.withFiles files) = e.timestampAt H w := rfl

theorem hashAt_withFiles (head : String) :
    e.hashAt H (w.withFiles files) head = e.hashAt H w head := rfl

theorem eventIdAt_withFiles : e.eventIdAt H (w.withFiles files) = e.eventIdAt H w := rfl

end

/-- The world whose files are the lines that are read. -/
def TextWorld.withLines (t : TextWorld) (files : List (List String × List Json)) : World :=
  t.world.withFiles files

theorem ReadAs.iterEvents {texts : LogTexts} {files : List (List String × List Json)}
    (h : ReadAs R texts files) : R.iterEvents texts = (files.flatMap (·.2)).map Except.ok := by
  induction h with
  | nil => rfl
  | cons hf _ ih =>
    rw [List.flatMap_cons, List.map_append, ← hf.2, ← ih]
    rfl

/-- Texts whose lines are all read are read as some files. -/
theorem exists_readAs {texts : LogTexts} {log : List Json}
    (h : R.iterEvents texts = log.map Except.ok) : ∃ files, ReadAs R texts files := by
  induction texts generalizing log with
  | nil => exact ⟨[], List.Forall₂.nil⟩
  | cons f texts ih =>
    rw [JsonReader.iterEvents, List.flatMap_cons, List.append_eq_map_iff] at h
    obtain ⟨lines, rest, -, hf, hrest⟩ := h
    obtain ⟨files, hfiles⟩ := ih hrest.symm
    exact ⟨(f.1, lines) :: files, List.Forall₂.cons ⟨rfl, hf.symm⟩ hfiles⟩

theorem walk_of_eq_map {texts : LogTexts} {log : List Json}
    (h : R.iterEvents texts = log.map Except.ok) :
    R.walk H texts = log.foldlM (checkLink H) genesis := by
  rw [JsonReader.walk, h, List.foldlM_map]
  rfl

/-- A walk that comes to the end has read every line. -/
theorem exists_log_of_walk {texts : LogTexts} {tail : String} (h : R.walk H texts = .ok tail) :
    ∃ log : List Json, R.iterEvents texts = log.map Except.ok := by
  unfold JsonReader.walk at h
  generalize R.iterEvents texts = lines at h ⊢
  generalize genesis = prev at h
  induction lines generalizing prev with
  | nil => exact ⟨[], rfl⟩
  | cons line lines ih =>
    rw [List.foldlM_cons] at h
    obtain ⟨prev', hprev, hrest⟩ := Act.except_bind_eq_ok.1 h
    obtain ⟨env, rfl, -⟩ := Act.except_bind_eq_ok.1 hprev
    obtain ⟨log, rfl⟩ := ih _ hrest
    exact ⟨env :: log, rfl⟩

theorem ReadAs.validatedTail {t : TextWorld} {files : List (List String × List Json)}
    (h : ReadAs R t.texts files) :
    R.validatedTail H t.texts = Shiroe.validatedTail H (t.withLines files).dir := by
  have hmap : ∀ log : List Json,
      (log.map Except.ok : List (Except Exc Json)).mapM id = .ok log := by
    intro log
    rw [Act.except_mapM_eq_ok, List.forall₂_map_left_iff]
    exact List.forall₂_same.2 fun _ _ => rfl
  rw [JsonReader.validatedTail, walk_of_eq_map h.iterEvents, h.iterEvents, hmap]
  rfl

theorem ReadAs.verifyChain {t : TextWorld} {files : List (List String × List Json)}
    (h : ReadAs R t.texts files) :
    R.verifyChain H t.texts t.world.dir.head = Shiroe.verifyChain H (t.withLines files).dir := by
  have hne : R.iterEvents t.texts ≠ [] ↔ files.flatMap (·.2) ≠ [] := by
    rw [h.iterEvents, ne_eq, List.map_eq_nil_iff]
  rw [JsonReader.verifyChain, walk_of_eq_map h.iterEvents]
  simp only [hne]
  rfl

/-- Texts on which the walk ends well are read. -/
theorem exists_readAs_of_validatedTail {texts : LogTexts} {r : String × Json × List Json}
    (h : R.validatedTail H texts = .ok r) : ∃ files, ReadAs R texts files := by
  obtain ⟨tail, htail, -⟩ := Act.except_bind_eq_ok.1 h
  obtain ⟨log, hlog⟩ := exists_log_of_walk htail
  exact exists_readAs hlog

/-! ### The append on texts and the append on lines -/

/-- What a computation on the lines does, over the texts. -/
def TextWorld.lift {α : Type} (t : TextWorld) : EStateM.Result Exc World α →
    EStateM.Result Exc TextWorld α
  | .ok a w => .ok a { t with world := w.withFiles t.world.dir.files }
  | .error x w => .error x { t with world := w.withFiles t.world.dir.files }

theorem TextWorld.exists_of_lift {α : Type} {t t' : TextWorld} {r : EStateM.Result Exc World α}
    {x : Exc} (h : t.lift r = .error x t') : ∃ w, r = .error x w := by
  cases r with
  | ok a w => cases h
  | error y w =>
    cases h
    exact ⟨w, rfl⟩

theorem recoverHead_lifts {t : TextWorld} {files : List (List String × List Json)}
    (h : ReadAs R t.texts files) :
    TextWorld.recoverHead R H t = t.lift (Shiroe.recoverHead H none (t.withLines files)) := by
  unfold TextWorld.recoverHead Shiroe.recoverHead
  have hhead : (t.withLines files).dir.head = t.world.dir.head := rfl
  simp only [bind, EStateM.bind, get, getThe, MonadStateOf.get, EStateM.get,
    h.validatedTail (H := H)]
  cases Shiroe.validatedTail H (t.withLines files).dir with
  | error x => rfl
  | ok r =>
    simp only [Act.ofExcept, pure, EStateM.pure, hhead]
    cases t.world.dir.head with
    | none =>
      simp only [reach, reduceCtorEq, if_false]
      split_ifs <;> rfl
    | some head =>
      simp only [reach, reduceCtorEq, if_false]
      split_ifs <;> rfl

theorem loadHead_lifts {t : TextWorld} {files : List (List String × List Json)}
    (h : ReadAs R t.texts files) (i : ℕ) :
    TextWorld.loadHead R H i t = t.lift (Shiroe.loadHead H i none (t.withLines files)) := by
  have hrec : (t.withLines files).recovered = t.world.recovered := rfl
  unfold TextWorld.loadHead Shiroe.loadHead
  simp only [bind, EStateM.bind, get, getThe, MonadStateOf.get, EStateM.get, hrec]
  by_cases hi : t.world.recovered i = false
  · simp only [hi, if_true, EStateM.bind, recoverHead_lifts h]
    cases Shiroe.recoverHead H none (t.withLines files) <;> rfl
  · simp only [hi]
    rfl

/-- The append on lines from the loaded head on. -/
def storeLine (H : Host) (envelope : EventEnvelope) (head : String) : Op Json := do
  let w ← get
  let env := envelope.preparedAt H w head
  set (envelope.stamp w)
  Act.ofExcept (validateEnvelope true env)
  modifyDir (·.appendEvent (envelope.timestampAt H w) env)
  modifyDir (·.writeHead (envelope.hashAt H w head) (.str (envelope.eventIdAt H w)))
  onDb (mirrorRow H env)
  return env

theorem append_eq_storeLine (i : ℕ) (e : EventEnvelope) : Shiroe.append H i e none = (do
    let w ← get
    if w.dir.lockfile then throw .lockHeld
    let head ← Shiroe.loadHead H i none
    storeLine H (e.scrubbed H) head) := by
  unfold Shiroe.append appendScrubbed storeLine
  simp only [reach, reduceCtorEq, if_false, pure_bind]

/-- What the append on lines leaves of the files: it writes its line, or raises before it does. -/
inductive LineWritten (H : Host) (e : EventEnvelope) (path : List String) (texts : LogTexts)
    (files : List (List String × List Json)) : LogTexts → List (List String × List Json) → Prop
  | none : LineWritten H e path texts files texts files
  | line (w : World) (head : String) :
      LineWritten H e path texts files
        (appendText path (lineOf ((e.scrubbed H).preparedAt H w head)) texts)
        (appendLine path ((e.scrubbed H).preparedAt H w head) files)

theorem appendLine_ne (path : List String) (env : Json)
    (files : List (List String × List Json)) : appendLine path env files ≠ files := by
  intro h
  have hlength := (appendLine_perm path env files).length_eq
  rw [h] at hlength
  simp at hlength

/-- Where no line is written, no text is. -/
theorem LineWritten.same {e : EventEnvelope} {path : List String} {texts texts' : LogTexts}
    {files : List (List String × List Json)} (h : LineWritten H e path texts files texts' files) :
    texts' = texts := by
  suffices hall : ∀ files', LineWritten H e path texts files texts' files' → files' = files →
      texts' = texts from hall files h rfl
  intro files' h hfiles
  cases h with
  | none => rfl
  | line w head => exact absurd hfiles (appendLine_ne _ _ _)

theorem store_lifts {t : TextWorld} {e : EventEnvelope} {path : List String} {w : World}
    (hpath : currentPath ((e.scrubbed H).timestampAt H w) = path) (head : String) :
    ∃ texts, TextWorld.store H (e.scrubbed H) head
        { t with world := w.withFiles t.world.dir.files } =
        ({ t with texts } : TextWorld).lift (storeLine H (e.scrubbed H) head w) ∧
      LineWritten H e path t.texts w.dir.files texts
        (Act.final (storeLine H (e.scrubbed H) head) w).dir.files := by
  subst hpath
  unfold Act.final TextWorld.store
  generalize hr : storeLine H (e.scrubbed H) head w = r
  unfold storeLine at hr
  simp only [bind, EStateM.bind, get, getThe, MonadStateOf.get, EStateM.get, set, MonadStateOf.set,
    EStateM.set, preparedAt_withFiles, timestampAt_withFiles, hashAt_withFiles,
    eventIdAt_withFiles, stamp_withFiles] at hr ⊢
  cases hv : validateEnvelope true ((e.scrubbed H).preparedAt H w head) with
  | error x =>
    rw [hv] at hr
    subst hr
    exact ⟨t.texts, rfl, .none⟩
  | ok u =>
    rw [hv] at hr
    refine ⟨appendText (currentPath ((e.scrubbed H).timestampAt H w))
      (lineOf ((e.scrubbed H).preparedAt H w head)) t.texts, ?_⟩
    simp only [Act.ofExcept, pure, EStateM.pure, modifyDir, modify, modifyGet,
      MonadStateOf.modifyGet, EStateM.modifyGet, onDb, onWorld, Act.zoom, EStateM.bind,
      World.withFiles, EventEnvelope.stamp] at hr ⊢
    cases hm : mirrorRow H ((e.scrubbed H).preparedAt H w head) w.db with
    | ok u db =>
      rw [hm] at hr
      subst hr
      exact ⟨rfl, .line w head⟩
    | error x db =>
      rw [hm] at hr
      subst hr
      exact ⟨rfl, .line w head⟩

/-- **The append on texts that are read does what the append on their lines does**, but for the text
that it writes where the other writes the line. -/
theorem append_lifts {t : TextWorld} {files : List (List String × List Json)}
    (h : ReadAs R t.texts files) (i : ℕ) (e : EventEnvelope) :
    ∃ texts, TextWorld.append R H i e t =
        ({ t with texts } : TextWorld).lift (Shiroe.append H i e none (t.withLines files)) ∧
      LineWritten H e (currentPath (e.timestampAt H t.world)) t.texts files texts
        (Act.final (Shiroe.append H i e none) (t.withLines files)).dir.files := by
  have hlock : (t.withLines files).dir.lockfile = t.world.dir.lockfile := rfl
  have hspec := loadHead_spec (H := H) i none (t.withLines files)
  rw [append_eq_storeLine]
  unfold Act.final TextWorld.append
  simp only [bind, EStateM.bind, get, getThe, MonadStateOf.get, EStateM.get, hlock]
  by_cases hlocked : t.world.dir.lockfile = true
  · simp only [hlocked, if_true]
    exact ⟨t.texts, rfl, .none⟩
  simp only [hlocked, Bool.false_eq_true, if_false, EStateM.bind, loadHead_lifts h]
  cases hl : Shiroe.loadHead H i none (t.withLines files) with
  | error x w =>
    have hsame : w = t.withLines files := (Act.wp_of_error hl).1 hspec
    refine ⟨t.texts, rfl, ?_⟩
    rw [hsame]
    exact .none
  | ok head w =>
    have hloaded := (Act.wp_of_ok hl).1 hspec
    have htime : (e.scrubbed H).timestampAt H w = e.timestampAt H t.world := hloaded.timestampAt e
    have hfiles : w.dir.files = files := hloaded.files
    obtain ⟨texts, heq, hwritten⟩ := store_lifts (t := t) (congrArg currentPath htime) head
    rw [hfiles] at hwritten
    refine ⟨texts, ?_, ?_⟩
    · simp only [TextWorld.lift] at heq ⊢
      exact heq
    · unfold Act.final at hwritten
      dsimp only
      exact hwritten

/-! ### What the written texts are read as -/

/-- Nothing but blanks stands behind the last line break of the file under `path`, if there is
one. -/
def ClosedAt (texts : LogTexts) (path : List String) : Prop :=
  ∀ text, (path, some text) ∈ texts →
    ∀ c ∈ TextLines.openLine isBreak text, isSpace c = true

theorem isBreak_newline : isBreak '\n' = true := rfl

theorem solid_dumps_obj (d : List (String × Json)) :
    TextLines.Solid isSpace isBreak (Json.dumps true (.obj d)) := by
  refine Json.solid_dumps true rfl rfl (fun c hc => ?_) d
  rw [isBreak, Bool.or_eq_false_iff, decide_eq_false_iff_not, decide_eq_false_iff_not]
  constructor
  · rintro rfl
    exact absurd hc (by decide)
  · rintro rfl
    exact absurd hc (by decide)

theorem isSome_of_readLine {line : List Char} {j : Json} (h : R.readLine line = .ok j) :
    (R.loads line).isSome = true := by
  unfold JsonReader.readLine at h
  cases hl : R.loads line with
  | some k => rfl
  | none =>
    rw [hl] at h
    cases h

/-- The line of an object is read as the object. -/
theorem readLine_dumps {d : List (String × Json)} (h : (Json.obj d).WF) :
    R.readLine (Json.dumps true (.obj d)) = .ok (.obj d) := by
  rw [JsonReader.readLine, R.loads_dumps, h.reread]

theorem readFile_append_closed {text : List Char} {d : List (String × Json)}
    (h : (Json.obj d).WF)
    (hclosed : ∀ c ∈ TextLines.openLine isBreak text, isSpace c = true) :
    R.readFile (some (text ++ lineOf (.obj d))) = R.readFile (some text) ++ [.ok (.obj d)] := by
  simp only [JsonReader.readFile, lineOf, TextLines.lines_append_line_of_blank (solid_dumps_obj d)
    isBreak_newline hclosed, List.map_append, List.map_singleton, readLine_dumps h]

/-- A line written behind one that is open is not read. -/
theorem readFile_append_open {text : List Char} {lines : List Json}
    (h : R.readFile (some text) = lines.map Except.ok)
    (hopen : ¬ ∀ c ∈ TextLines.openLine isBreak text, isSpace c = true)
    (d : List (String × Json)) (lines' : List Json) :
    R.readFile (some (text ++ lineOf (.obj d))) ≠ lines'.map Except.ok := by
  intro h'
  have hne : TextLines.trim isSpace (TextLines.openLine isBreak text) ≠ [] := fun hnil =>
    hopen (TextLines.trim_eq_nil_iff.1 hnil)
  obtain ⟨b, hb, htrim⟩ := (solid_dumps_obj d).trim_append (TextLines.openLine isBreak text)
  simp only [JsonReader.readFile] at h h'
  rw [TextLines.lines_eq, if_neg hne, List.map_append, List.append_eq_map_iff] at h
  rw [lineOf, TextLines.lines_append_line (solid_dumps_obj d) isBreak_newline, htrim,
    List.map_append, List.append_eq_map_iff] at h'
  obtain ⟨-, last, -, -, hlast⟩ := h
  obtain ⟨-, last', -, -, hlast'⟩ := h'
  obtain ⟨j, -, hj⟩ := List.map_eq_singleton_iff.1 hlast
  obtain ⟨j', -, hj'⟩ := List.map_eq_singleton_iff.1 hlast'
  -- the open line is read, so it is not read any more with the object behind it
  have hread := isSome_of_readLine hj.symm
  have hread' := isSome_of_readLine hj'.symm
  rw [R.loads_extra d hread hb] at hread'
  cases hread'

section

variable {path : List String} {texts : LogTexts} {files : List (List String × List Json)}
  {d : List (String × Json)}

/-- **Behind whole lines the new line is read by itself.** -/
theorem ReadAs.appendText (h : ReadAs R texts files) (hwf : (Json.obj d).WF)
    (hclosed : ClosedAt texts path) :
    ReadAs R (Shiroe.appendText path (lineOf (.obj d)) texts) (appendLine path (.obj d) files) := by
  have hnew : R.readFile (some (lineOf (.obj d))) = [.ok (.obj d)] := by
    have hempty : R.readFile (some ([] ++ lineOf (.obj d))) = _ :=
      readFile_append_closed hwf fun c hc => by cases hc
    exact hempty
  induction h with
  | nil => exact List.Forall₂.cons ⟨rfl, hnew⟩ List.Forall₂.nil
  | @cons f g texts files hf hrest ih =>
    obtain ⟨p, text⟩ := f
    obtain ⟨p', lines⟩ := g
    obtain ⟨rfl, hlines⟩ : p = p' ∧ _ := hf
    have hclosed' : ClosedAt texts path := fun text htext =>
      hclosed text (List.mem_cons_of_mem _ htext)
    unfold Shiroe.appendText appendLine
    split_ifs with heq hlt
    · subst heq
      refine List.Forall₂.cons ⟨rfl, ?_⟩ hrest
      cases text with
      | none =>
        cases lines <;> cases hlines
      | some text =>
        simp only [Option.map_some]
        rw [readFile_append_closed hwf (hclosed text List.mem_cons_self), hlines, List.map_append]
        rfl
    · exact List.Forall₂.cons ⟨rfl, hnew⟩ (List.Forall₂.cons ⟨rfl, hlines⟩ hrest)
    · exact List.Forall₂.cons ⟨rfl, hlines⟩ (ih hclosed')

theorem ReadAs.paths (h : ReadAs R texts files) : texts.map (·.1) = files.map (·.1) := by
  induction h with
  | nil => rfl
  | cons hf _ ih => rw [List.map_cons, List.map_cons, hf.1, ih]

/-- **Behind an open line the new line is not read.** -/
theorem ReadAs.not_appendText (h : ReadAs R texts files) (hord : InOrder files)
    (hopen : ¬ ClosedAt texts path) (files' : List (List String × List Json)) :
    ¬ ReadAs R (Shiroe.appendText path (lineOf (.obj d)) texts) files' := by
  induction h generalizing files' with
  | nil => exact absurd (fun text htext => (by cases htext)) hopen
  | @cons f g texts files hf hrest ih =>
    obtain ⟨p, text⟩ := f
    obtain ⟨p', lines⟩ := g
    obtain ⟨rfl, hlines⟩ : p = p' ∧ _ := hf
    rw [InOrder, List.map_cons, List.pairwise_cons] at hord
    obtain ⟨hbefore, hord⟩ := hord
    have hbehind : ∀ f ∈ texts, p < f.1 := fun f hf =>
      hbefore f.1 (ReadAs.paths hrest ▸ List.mem_map_of_mem hf)
    intro hread
    unfold Shiroe.appendText at hread
    split_ifs at hread with heq hlt
    · subst heq
      obtain ⟨⟨p', lines'⟩, files', ⟨-, hf'⟩, -, -⟩ := List.forall₂_cons_left_iff.1 hread
      -- the file is the only one under its path, so its last line is the open one
      cases text with
      | none => cases lines <;> cases hlines
      | some text =>
        refine readFile_append_open hlines (fun hblank => hopen fun text' htext => ?_) d _ hf'
        rcases List.mem_cons.1 htext with heq | hmem
        · cases heq
          exact hblank
        · exact absurd (hbehind _ hmem) (lt_irrefl _)
    · refine hopen fun text' htext => ?_
      rcases List.mem_cons.1 htext with heq' | hmem
      · cases heq'
        exact absurd rfl heq
      · exact absurd (hlt.trans (hbehind _ hmem)) (lt_irrefl _)
    · obtain ⟨-, files'', -, hrest', -⟩ := List.forall₂_cons_left_iff.1 hread
      refine ih hord (fun hclosed => hopen fun text' htext => ?_) _ hrest'
      rcases List.mem_cons.1 htext with heq' | hmem
      · cases heq'
        exact absurd rfl heq
      · exact hclosed text' hmem

end

/-! ### What an append adds -/

/-- The texts of `t'` are read as the log of `files` with the event of `e` at its end, `env`, which
the head names, and `verify_chain` passes. -/
def Adds (R : JsonReader) (H : Host) (e : EventEnvelope) (t : TextWorld)
    (files : List (List String × List Json)) (t' : TextWorld) (env : Json) : Prop :=
  ∃ files', ReadAs R t'.texts files' ∧
    Extended H e (t.withLines files) (t'.withLines files').dir env ∧
    R.verifyChain H t'.texts t'.world.dir.head = .ok ()

/-- On texts that are read, what the append leaves is read as what the append on lines leaves. -/
theorem append_adds {t : TextWorld} {files : List (List String × List Json)} {i : ℕ}
    {e : EventEnvelope} {env : Json} (hread : ReadAs R t.texts files) (hwf : e.payload.WF)
    (hdated : WellDated (t.withLines files).dir (e.timestampAt H t.world))
    (hext : Extended H e (t.withLines files)
      (Act.final (Shiroe.append H i e none) (t.withLines files)).dir env) :
    (ClosedAt t.texts (currentPath (e.timestampAt H t.world)) →
        Adds R H e t files (Act.final (TextWorld.append R H i e) t) env) ∧
      ∀ env', Adds R H e t files (Act.final (TextWorld.append R H i e) t) env' →
        ClosedAt t.texts (currentPath (e.timestampAt H t.world)) := by
  obtain ⟨texts, heq, hwritten⟩ := append_lifts hread i e
  have hfinal : Act.final (TextWorld.append R H i e) t = { texts := texts, world :=
      (Act.final (Shiroe.append H i e none) (t.withLines files)).withFiles t.world.dir.files } := by
    unfold Act.final
    rw [heq]
    cases Shiroe.append H i e none (t.withLines files) <;> rfl
  rw [hfinal]
  generalize Act.final (Shiroe.append H i e none) (t.withLines files) = w' at hext hwritten ⊢
  have hevents : w'.dir.files.flatMap (·.2) = files.flatMap (·.2) ++ [env] := hext.events
  generalize hfiles : w'.dir.files = files' at hwritten hevents
  cases hwritten with
  | none =>
    have hlength := congrArg List.length hevents
    simp at hlength
  | line w head =>
    have hobj : ∃ d, (e.scrubbed H).preparedAt H w head = .obj d := ⟨_, rfl⟩
    have hwf' : ((e.scrubbed H).preparedAt H w head).WF :=
      (e.scrubbed H).wf_prepared _ _ _ hwf.mapStr
    generalize (e.scrubbed H).preparedAt H w head = env' at *
    obtain ⟨d, rfl⟩ := hobj
    constructor
    · intro hclosed
      have hread' := hread.appendText hwf' hclosed
      have hlines : ∀ texts, (⟨texts, w'.withFiles t.world.dir.files⟩ : TextWorld).withLines
          (appendLine (currentPath (e.timestampAt H t.world)) (.obj d) files) = w' := fun _ =>
        World.withFiles_self hfiles _
      refine ⟨_, hread', ?_, ?_⟩
      · rw [hlines]
        exact hext
      · have hverify := ReadAs.verifyChain (H := H)
          (t := ⟨_, w'.withFiles t.world.dir.files⟩) hread'
        rw [hlines] at hverify
        exact hverify.trans hext.verified
    · rintro env' ⟨files', hread', -, -⟩
      by_contra hopen
      exact hread.not_appendText hdated.order hopen files' hread'

theorem append_refuses_unread {t : TextWorld} (i : ℕ) (e : EventEnvelope)
    (hfresh : t.world.recovered i = false) (h : ¬ ∃ files, ReadAs R t.texts files) :
    Act.wp (TextWorld.append R H i e) (fun _ _ => False) (fun _ t' => t' = t) t := by
  simp only [TextWorld.append, TextWorld.loadHead, TextWorld.recoverHead, Act.wp_bind, Act.wp_get,
    Act.wp_ite, Act.wp_throw, Act.wp_pure, Act.wp_ofExcept]
  refine ⟨fun _ => trivial, fun _ => ⟨fun _ => ?_, fun hno => absurd hfresh hno⟩⟩
  cases hv : R.validatedTail H t.texts with
  | error x => trivial
  | ok r => exact absurd (exists_readAs_of_validatedTail hv) h

/-! ### A log whose last newline is lost -/

theorem numChar_of_isSpace {c : Char} (h : isSpace c = true) : Json.numChar c = false := by
  by_contra hnum
  rw [Bool.not_eq_false] at hnum
  have hlow := Json.toNat_ge_of_numChar hnum
  have hhigh := Json.ascii_of_numChar hnum
  -- the one blank among the printable characters of ASCII
  have hc : c.toNat = ' '.toNat := by
    simp only [isSpace, Bool.or_eq_true, Bool.and_eq_true, decide_eq_true_eq,
      List.contains_eq_mem, List.mem_cons, List.not_mem_nil, or_false] at h
    change c.toNat = 32
    omega
  rw [Char.ext (UInt32.toNat_inj.1 hc)] at hnum
  cases hnum

/-- `Json.loads` as a reader of lines. -/
def JsonReader.canonical : JsonReader where
  loads := Json.loads
  loads_dumps := Json.loads_dumps true
  loads_extra := by
    intro s b d hs hb
    rw [List.append_assoc]
    refine Json.loads_extra hs (fun c hc => ?_) (by simp [Json.dumps])
    cases b with
    | nil =>
      obtain rfl : '{' = c := Option.some.inj hc
      rfl
    | cons c' b =>
      obtain rfl : c' = c := Option.some.inj hc
      exact numChar_of_isSpace (hb c' List.mem_cons_self)

/-- The files of a log as their texts, every line with its newline. -/
def textsOf (files : List (List String × List Json)) : LogTexts :=
  files.map fun f => (f.1, some (f.2.flatMap lineOf))

/-- **What is written line by line is read line by line.** -/
theorem readAs_textsOf {files : List (List String × List Json)}
    (h : ∀ f ∈ files, ∀ env ∈ f.2, env.WF ∧ ∃ d, env = .obj d) :
    ReadAs R (textsOf files) files := by
  unfold ReadAs textsOf
  rw [List.forall₂_map_left_iff, List.forall₂_same]
  intro f hf
  refine ⟨rfl, ?_⟩
  have hsolid : ∀ l ∈ f.2.map (Json.dumps true), TextLines.Solid isSpace isBreak l := by
    intro l hl
    obtain ⟨env, henv, rfl⟩ := List.mem_map.1 hl
    obtain ⟨-, d, rfl⟩ := h f hf env henv
    exact solid_dumps_obj d
  have hlines := TextLines.lines_written isBreak_newline hsolid
  rw [List.flatMap_map] at hlines
  rw [JsonReader.readFile, show f.2.flatMap lineOf = _ from rfl]
  unfold lineOf
  rw [hlines, List.map_map]
  refine List.map_congr_left fun env henv => ?_
  obtain ⟨hwf, d, rfl⟩ := h f hf env henv
  exact readLine_dumps hwf

/-- The first event of a project. -/
def firstEvent : Json := startedEnvelope.preparedAt (Host.plain id) emptyWorld genesis

/-- The event after it. -/
def secondEvent : Json :=
  startedEnvelope.preparedAt (Host.plain id) (startedEnvelope.stamp emptyWorld)
    (hashEnvelope (Host.plain id) firstEvent)

/-- The file of the two events. -/
def januaryFiles : List (List String × List Json) :=
  [(["2026", "01", "events.jsonl"], [firstEvent, secondEvent])]

theorem valid_started : startedEnvelope.Valid := ⟨by decide, by decide, rfl⟩

theorem wf_started : startedEnvelope.payload.WF := by
  refine Json.WF.mkObj ?_
  simp [Json.WFFields, Json.WF]

theorem januaryFiles_wf : ∀ f ∈ januaryFiles, ∀ env ∈ f.2, env.WF ∧ ∃ d, env = .obj d := by
  intro f hf env henv
  obtain rfl := List.mem_singleton.1 hf
  rcases List.mem_cons.1 henv with rfl | henv
  · exact ⟨startedEnvelope.wf_prepared _ _ _ wf_started, _, rfl⟩
  · obtain rfl := List.mem_singleton.1 henv
    exact ⟨startedEnvelope.wf_prepared _ _ _ wf_started, _, rfl⟩

theorem isChain_january :
    IsChain (Host.plain id) (januaryFiles.flatMap (·.2)) := by
  have hfirst : IsChain (Host.plain id) ([] ++ [firstEvent]) :=
    isChain_concat.2 ⟨isChain_nil, isSealed_preparedAt (valid_started.validate _ _ _),
      startedEnvelope.prevOf_prepared _ _ _⟩
  have hsecond : IsChain (Host.plain id) ([firstEvent] ++ [secondEvent]) :=
    isChain_concat.2 ⟨hfirst, isSealed_preparedAt (valid_started.validate _ _ _),
      startedEnvelope.prevOf_prepared _ _ _⟩
  exact hsecond

/-- A project whose `head.json` names the first of its two events. -/
def laggingWorld (texts : LogTexts) : TextWorld where
  texts := texts
  world := { emptyWorld with
    dir := { head := some ⟨hashEnvelope (Host.plain id) firstEvent, .null⟩ } }

theorem headKnown_lagging (texts : LogTexts) :
    HeadKnown ((laggingWorld texts).withLines januaryFiles).dir := by
  rintro h ⟨⟩
  refine Or.inr (List.mem_map.2 ⟨firstEvent, List.mem_cons_self, ?_⟩)
  exact (isChain_january.1 firstEvent List.mem_cons_self).2

theorem wellDated_lagging (texts : LogTexts) :
    WellDated ((laggingWorld texts).withLines januaryFiles).dir
      (startedEnvelope.timestampAt (Host.plain id) (laggingWorld texts).world) where
  order := List.pairwise_singleton _ _
  iso := (Host.plain id).clock_iso _
  dated f hf env henv := by
    obtain rfl := List.mem_singleton.1 hf
    refine ⟨"2026-01-01T00:00:00+00:00", ?_, by decide, by decide, le_refl _⟩
    have htime : ∀ w head, (startedEnvelope.preparedAt (Host.plain id) w head).get "timestamp" =
        .str "2026-01-01T00:00:00+00:00" := by
      intro w head
      simp [EventEnvelope.preparedAt, EventEnvelope.prepared, EventEnvelope.fields, List.lookup]
      rfl
    rcases List.mem_cons.1 henv with rfl | henv
    · exact htime _ _
    · obtain rfl := List.mem_singleton.1 henv
      exact htime _ _

/-- The texts of the two events when the last newline is not written any more. -/
def tornTexts : LogTexts :=
  [(["2026", "01", "events.jsonl"], some (lineOf firstEvent ++ secondEvent.dumps true))]

theorem readAs_tornTexts : ReadAs R tornTexts januaryFiles := by
  have hwhole := readAs_textsOf (R := R) januaryFiles_wf
  obtain ⟨-, hfile⟩ := (List.forall₂_cons.1 hwhole).1
  refine List.Forall₂.cons ⟨rfl, Eq.trans ?_ hfile⟩ List.Forall₂.nil
  have htext : ([firstEvent, secondEvent].flatMap lineOf : List Char) =
      (lineOf firstEvent ++ secondEvent.dumps true) ++ '\n' :: [] := by
    simp [lineOf]
  simp only [JsonReader.readFile]
  rw [htext, TextLines.lines_append_cons isBreak_newline, TextLines.lines_nil, List.append_nil]

theorem closedAt_textsOf (files : List (List String × List Json)) (path : List String) :
    ClosedAt (textsOf files) path := by
  intro text htext c hc
  obtain ⟨f, -, hf⟩ := List.mem_map.1 htext
  have htext : f.2.flatMap lineOf = text := Option.some.inj (Prod.mk.inj hf).2
  have hnil : TextLines.openLine isBreak text = [] := by
    rcases List.eq_nil_or_concat f.2 with hlines | ⟨lines, env, hlines⟩
    · rw [← htext, hlines]
      rfl
    · rw [← htext, hlines, List.concat_eq_append, List.flatMap_append, List.flatMap_singleton,
        lineOf, ← List.append_assoc]
      exact TextLines.openLine_append_cons isBreak_newline _ (List.forall_mem_nil _)
  rw [hnil] at hc
  cases hc

theorem not_closedAt_tornTexts : ¬ ClosedAt tornTexts ["2026", "01", "events.jsonl"] := by
  intro h
  obtain ⟨d, hd⟩ : ∃ d, secondEvent = .obj d := ⟨_, rfl⟩
  have hopen : TextLines.openLine isBreak (lineOf firstEvent ++ secondEvent.dumps true) =
      secondEvent.dumps true := by
    rw [lineOf, List.append_assoc, List.singleton_append]
    refine TextLines.openLine_append_cons isBreak_newline _ fun c hc => ?_
    rw [hd] at hc
    exact (solid_dumps_obj d).unbroken c hc
  have hblank := h _ (List.mem_singleton_self _) '{' (by rw [hopen, hd]; exact List.mem_cons_self)
  exact absurd hblank (by decide)

/-! ### The first append -/

/-- **The first append of a fresh object** adds its event to a chain whose head is known iff nothing
but blanks stands behind the last line break of the file that it writes to; to texts that are not
read, are no chain or lack the event that the head names it writes nothing. -/
theorem first_append_iff (R : JsonReader) (t : TextWorld) (i : ℕ) (e : EventEnvelope)
    (hfresh : t.world.recovered i = false) :
    (∀ files, ReadAs R t.texts files → t.world.dir.lockfile = false → e.Valid → e.payload.WF →
      IsChain H (t.withLines files).dir.iterEvents → HeadKnown (t.withLines files).dir →
      WellDated (t.withLines files).dir (e.timestampAt H t.world) →
        ((∃ env, Adds R H e t files (Act.final (TextWorld.append R H i e) t) env ∧
            ((∃ x t', TextWorld.append R H i e t = .error x t') →
              ∃ x, mirrorRow H env t.world.db = .error x t.world.db)) ↔
          ClosedAt t.texts (currentPath (e.timestampAt H t.world)))) ∧
    ((¬ ∃ files, ReadAs R t.texts files ∧ IsChain H (t.withLines files).dir.iterEvents ∧
        HeadKnown (t.withLines files).dir) →
      ∃ x t', TextWorld.append R H i e t = .error x t' ∧ t'.texts = t.texts ∧
        t'.world.dir = t.world.dir) := by
  refine ⟨fun files hread hunlocked hvalid hwf hchain hhead hdated => ?_, fun h => ?_⟩
  · obtain ⟨env, hext, hmirror⟩ := (first_append (H := H) (t.withLines files) i e hfresh).1
      hunlocked hvalid hchain hhead hdated
    obtain ⟨hadds, hclosed⟩ := append_adds hread hwf hdated hext
    refine ⟨?_, fun hclosed => ⟨env, hadds hclosed, ?_⟩⟩
    · rintro ⟨env', hadded, -⟩
      exact hclosed env' hadded
    · rintro ⟨x, t', hraise⟩
      obtain ⟨texts, heq, -⟩ := append_lifts (H := H) hread i e
      exact hmirror ⟨x, TextWorld.exists_of_lift (heq.symm.trans hraise)⟩
  · by_cases hread : ∃ files, ReadAs R t.texts files
    · obtain ⟨files, hread⟩ := hread
      have hbad : ¬ IsChain H (t.withLines files).dir.iterEvents ∨
          ¬ HeadKnown (t.withLines files).dir := by
        by_contra hgood
        rw [not_or, not_not, not_not] at hgood
        exact h ⟨files, hread, hgood⟩
      obtain ⟨x, w', hraise, hdir⟩ := (first_append (H := H) (t.withLines files) i e hfresh).2 hbad
      obtain ⟨texts, heq, hwritten⟩ := append_lifts (H := H) hread i e
      rw [hraise] at heq
      have hfiles : w'.dir.files = files := by
        rw [hdir]
        rfl
      rw [Act.final, hraise, hfiles] at hwritten
      refine ⟨x, _, heq, hwritten.same, ?_⟩
      rw [World.withFiles, hdir]
      rfl
    · have hrefuses := append_refuses_unread (H := H) i e hfresh hread
      cases hr : TextWorld.append R H i e t with
      | ok env t' => exact ((Act.wp_of_ok hr).1 hrefuses).elim
      | error x t' =>
        have hsame : t' = t := (Act.wp_of_error hr).1 hrefuses
        subst hsame
        exact ⟨x, t', rfl, rfl, rfl⟩

/-- A fresh object adds its event to a log with a lagging head, not to one whose last newline is
lost, and refuses an empty log with a head. -/
theorem first_append_iff_lagging :
    (∃ env, Adds .canonical (Host.plain id) startedEnvelope (laggingWorld (textsOf januaryFiles))
        januaryFiles (Act.final (TextWorld.append .canonical (Host.plain id) 0 startedEnvelope)
          (laggingWorld (textsOf januaryFiles))) env) ∧
      (∃ x t', TextWorld.append .canonical (Host.plain id) 0 startedEnvelope (laggingWorld []) =
        .error x t' ∧ t'.texts = [] ∧ t'.world.dir = (laggingWorld []).world.dir) := by
  constructor
  · obtain ⟨env, hadds, -⟩ := ((first_append_iff (H := Host.plain id) .canonical
      (laggingWorld (textsOf januaryFiles)) 0 startedEnvelope rfl).1 januaryFiles
      (readAs_textsOf januaryFiles_wf) rfl valid_started wf_started isChain_january
      (headKnown_lagging _) (wellDated_lagging _)).2 (closedAt_textsOf _ _)
    exact ⟨env, hadds⟩
  · refine (first_append_iff (H := Host.plain id) .canonical (laggingWorld []) 0 startedEnvelope
      rfl).2 ?_
    rintro ⟨files, hread, -, hknown⟩
    obtain rfl : files = [] := List.forall₂_nil_left_iff.1 hread
    rcases hknown _ rfl with hgenesis | hmem
    · exact hashEnvelope_ne_genesis _ hgenesis
    · cases hmem

/-- The event that is written behind a lost newline does not come to the log. -/
theorem torn_append_lost :
    ReadAs .canonical tornTexts januaryFiles ∧
      IsChain (Host.plain id) ((laggingWorld tornTexts).withLines januaryFiles).dir.iterEvents ∧
      HeadKnown ((laggingWorld tornTexts).withLines januaryFiles).dir ∧
      WellDated ((laggingWorld tornTexts).withLines januaryFiles).dir
        (startedEnvelope.timestampAt (Host.plain id) (laggingWorld tornTexts).world) ∧
      ¬ ∃ env, Adds .canonical (Host.plain id) startedEnvelope (laggingWorld tornTexts) januaryFiles
        (Act.final (TextWorld.append .canonical (Host.plain id) 0 startedEnvelope)
          (laggingWorld tornTexts)) env := by
  refine ⟨readAs_tornTexts, isChain_january, headKnown_lagging _, wellDated_lagging _, ?_⟩
  obtain ⟨env, hext, -⟩ := (first_append (H := Host.plain id)
    ((laggingWorld tornTexts).withLines januaryFiles) 0 startedEnvelope rfl).1 rfl valid_started
    isChain_january (headKnown_lagging _) (wellDated_lagging _)
  rintro ⟨env', hadds⟩
  exact not_closedAt_tornTexts ((append_adds readAs_tornTexts wf_started
    (wellDated_lagging tornTexts) hext).2 env' hadds)

end Shiroe
