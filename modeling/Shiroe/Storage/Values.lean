import Shiroe.Lib.JsonRead
import Shiroe.Storage.FirstAppend
import Shiroe.Storage.Keys

/-!
# Payloads as Python values

`EventLog.append` takes any payload that `json.dumps` serialises: dicts with keys that are not
strings, tuples next to lists.  `PyVal` is such a value, `PyVal.written` the fields in the order and
with the key texts that `json.dumps(…, sort_keys=True)` writes, `PyVal.walk` the redaction pass of
`_scrub_payload`, and `appendValue` the append.  A line of the log is read back with `json.loads`.

* `appendValue_ofJson` : on JSON values this is `append`;
* `reread_value_iff` : the envelope that is read back has the hash it states, and the log is
  accepted by the walks along it, exactly when the payload is `Stable`, whatever order `sorted`
  gives keys with a `NaN` among them.
-/

namespace Shiroe

/-! ### Values -/

/-- `sorted` can compare the keys: it raises a `TypeError` when two of them are of different
kinds. -/
def comparable (keys : List PyKey) : Bool :=
  keys.length ≤ 1 || keys.all PyKey.isStr || keys.all fun k => !k.isStr && !k.isNone

/-- The positions of the keys when they are sorted and keys that are not smaller than each other
keep their order. -/
def stableOrder (keys : List PyKey) : List ℕ :=
  (keys.zipIdx.insertionSort fun a b => b.1.lt a.1 = false).map Prod.snd

/-- The order in which `sorted` puts keys, as their positions.  A `NaN` is neither smaller nor
larger than another number, so that with one among the keys the order depends on which of them are
compared. -/
structure Sorter where
  order : List PyKey → List ℕ
  perm : ∀ keys, (order keys).Perm (List.range keys.length)
  stable : ∀ keys, comparable keys = true → (∀ k ∈ keys, k.isNaN = false) →
    order keys = stableOrder keys

/-- `sorted(d.items())`. -/
def sortItems {α : Type} (S : Sorter) (d : List (PyKey × α)) : List (PyKey × α) :=
  (S.order (d.map Prod.fst)).filterMap fun n => d[n]?

/-- A Python value that `json.dumps` may be given. -/
inductive PyVal where
  | none
  | bool (b : Bool)
  | int (n : ℤ)
  | float (x : PyFloat)
  | str (s : String)
  | list (items : List PyVal)
  | tuple (items : List PyVal)
  | dict (entries : List (PyKey × PyVal))

namespace PyVal

mutual
/-- The keys of every dict of the value can be sorted. -/
def sortable : PyVal → Bool
  | .list l => sortableItems l
  | .tuple l => sortableItems l
  | .dict d => comparable (d.map Prod.fst) && sortableEntries d
  | _ => true
/-- `sortable` for the items of a list. -/
def sortableItems : List PyVal → Bool
  | [] => true
  | a :: l => sortable a && sortableItems l
/-- `sortable` for the values of a dict. -/
def sortableEntries : List (PyKey × PyVal) → Bool
  | [] => true
  | (_, a) :: d => sortable a && sortableEntries d
end

mutual
/-- What `json.dumps(v, sort_keys=True)` writes: the fields come in the order of the sorted keys,
each under the text of its key. -/
def written (S : Sorter) : PyVal → Json
  | .none => .null
  | .bool b => .bool b
  | .int n => .int n
  | .float x => .float x
  | .str s => .str s
  | .list l => .arr (writtenItems S l)
  | .tuple l => .arr (writtenItems S l)
  | .dict d => .obj ((sortItems S (writtenEntries S d)).map fun kv => (kv.1.text, kv.2))
/-- `written` on the items of a list. -/
def writtenItems (S : Sorter) : List PyVal → List Json
  | [] => []
  | a :: l => written S a :: writtenItems S l
/-- `written` on the values of a dict. -/
def writtenEntries (S : Sorter) : List (PyKey × PyVal) → List (PyKey × Json)
  | [] => []
  | (k, a) :: d => (k, written S a) :: writtenEntries S d
end

mutual
/-- `_walk`: the strings of lists and the values of dicts are scrubbed; what is of no other type
stays as it is. -/
def walk (f : String → String) : PyVal → PyVal
  | .str s => .str (f s)
  | .dict d => .dict (walkEntries f d)
  | .list l => .list (walkItems f l)
  | v => v
/-- `_walk` on the items of a list. -/
def walkItems (f : String → String) : List PyVal → List PyVal
  | [] => []
  | a :: l => walk f a :: walkItems f l
/-- `_walk` on the values of a dict. -/
def walkEntries (f : String → String) : List (PyKey × PyVal) → List (PyKey × PyVal)
  | [] => []
  | (k, a) :: d => (k, walk f a) :: walkEntries f d
end

mutual
/-- A JSON value as a Python value. -/
def ofJson : Json → PyVal
  | .null => .none
  | .bool b => .bool b
  | .int n => .int n
  | .float x => .float x
  | .str s => .str s
  | .arr l => .list (ofItems l)
  | .obj d => .dict (ofFields d)
/-- `ofJson` on the items of an array. -/
def ofItems : List Json → List PyVal
  | [] => []
  | a :: l => ofJson a :: ofItems l
/-- `ofJson` on the fields of an object. -/
def ofFields : List (String × Json) → List (PyKey × PyVal)
  | [] => []
  | (k, a) :: d => (.str k, ofJson a) :: ofFields d
end

end PyVal

/-! ### Sorting the fields -/

variable {S : Sorter}

theorem sortItems_map {α β : Type} (f : α → β) (d : List (PyKey × α)) :
    sortItems S (d.map fun kv => (kv.1, f kv.2)) = (sortItems S d).map fun kv =>
      (kv.1, f kv.2) := by
  have hkeys : (d.map fun kv => (kv.1, f kv.2)).map Prod.fst = d.map Prod.fst := by
    rw [List.map_map]
    rfl
  simp only [sortItems, hkeys, List.map_filterMap, List.getElem?_map]

theorem mem_sortItems {α : Type} {d : List (PyKey × α)} {kv : PyKey × α} :
    kv ∈ sortItems S d ↔ kv ∈ d := by
  have hpos : ∀ n, n ∈ S.order (d.map Prod.fst) ↔ n < d.length := fun n => by
    rw [(S.perm _).mem_iff, List.mem_range, List.length_map]
  rw [sortItems, List.mem_filterMap, List.mem_iff_getElem?]
  refine exists_congr fun n => and_iff_right_of_imp fun h => (hpos n).2 ?_
  exact (List.getElem?_eq_some_iff.1 h).1

/-- Keys that compare as an order are sorted. -/
theorem sortItems_eq_insertionSort {α : Type} {d : List (PyKey × α)}
    (hcomparable : comparable (d.map Prod.fst) = true) (hnan : ∀ kv ∈ d, kv.1.isNaN = false) :
    sortItems S d = d.insertionSort fun a b => b.1.lt a.1 = false := by
  -- both are the entries with their positions, sorted by their keys
  have hkeys : (d.map Prod.fst).zipIdx.insertionSort (fun a b => b.1.lt a.1 = false) =
      (d.zipIdx.insertionSort fun a b => b.1.1.lt a.1.1 = false).map fun e => (e.1.1, e.2) := by
    rw [List.zipIdx_map]
    exact (List.map_insertionSort (fun a b : (PyKey × α) × ℕ => b.1.1.lt a.1.1 = false)
      (fun a b : PyKey × ℕ => b.1.lt a.1 = false) (fun e => (e.1.1, e.2)) d.zipIdx
      fun _ _ _ _ => Iff.rfl).symm
  have hitems : d.insertionSort (fun a b => b.1.lt a.1 = false) =
      (d.zipIdx.insertionSort fun a b => b.1.1.lt a.1.1 = false).map Prod.fst := by
    conv_lhs => rw [← List.zipIdx_map_fst 0 d]
    exact (List.map_insertionSort (fun a b : (PyKey × α) × ℕ => b.1.1.lt a.1.1 = false)
      (fun a b : PyKey × α => b.1.lt a.1 = false) Prod.fst d.zipIdx fun _ _ _ _ => Iff.rfl).symm
  rw [sortItems, S.stable _ hcomparable (by simpa using hnan), stableOrder, hkeys, hitems,
    List.map_map, List.filterMap_map, ← List.filterMap_eq_map]
  refine List.filterMap_congr fun e he => ?_
  exact List.mem_zipIdx_iff_getElem?.1 ((List.mem_insertionSort _).1 he)

namespace PyVal

theorem writtenEntries_eq_map (d : List (PyKey × PyVal)) :
    writtenEntries S d = d.map fun kv => (kv.1, written S kv.2) := by
  induction d with
  | nil => rfl
  | cons kv d ih => rw [writtenEntries, ih, List.map_cons]

theorem walkEntries_eq_map (f : String → String) (d : List (PyKey × PyVal)) :
    walkEntries f d = d.map fun kv => (kv.1, walk f kv.2) := by
  induction d with
  | nil => rfl
  | cons kv d ih => rw [walkEntries, ih, List.map_cons]

/-- The fields that are written for a dict. -/
theorem written_dict (d : List (PyKey × PyVal)) :
    written S (.dict d) = .obj ((sortItems S d).map fun kv => (kv.1.text, written S kv.2)) := by
  rw [written, writtenEntries_eq_map, sortItems_map, List.map_map]
  rfl

mutual
/-- In every dict of the value the texts of the sorted keys come in increasing order. -/
def Stable (S : Sorter) : PyVal → Prop
  | .list l => StableItems S l
  | .tuple l => StableItems S l
  | .dict d => ((sortItems S d).map fun kv => kv.1.text).Pairwise (· < ·) ∧ StableEntries S d
  | _ => True
/-- `Stable` for the items of a list. -/
def StableItems (S : Sorter) : List PyVal → Prop
  | [] => True
  | a :: l => Stable S a ∧ StableItems S l
/-- `Stable` for the values of a dict. -/
def StableEntries (S : Sorter) : List (PyKey × PyVal) → Prop
  | [] => True
  | (_, a) :: d => Stable S a ∧ StableEntries S d
end

theorem wfFields_written {d : List (PyKey × PyVal)} :
    Json.WFFields ((sortItems S d).map fun kv => (kv.1.text, written S kv.2)) ↔
      Json.WFFields (d.map fun kv => (kv.1.text, written S kv.2)) := by
  simp only [Json.wfFields_iff, List.forall_mem_map, mem_sortItems]

mutual
/-- **The fields are written in the order of their texts exactly for a stable value.** -/
theorem wf_written : ∀ p : PyVal, (written S p).WF ↔ p.Stable S
  | .none => Iff.rfl
  | .bool _ => Iff.rfl
  | .int _ => Iff.rfl
  | .float _ => Iff.rfl
  | .str _ => Iff.rfl
  | .list l => wf_writtenItems l
  | .tuple l => wf_writtenItems l
  | .dict d => by
    rw [written_dict, Json.WF, Stable, List.map_map, wfFields_written, wfFields_map_written d]
    rfl
theorem wf_writtenItems : ∀ l : List PyVal, Json.WFItems (writtenItems S l) ↔ StableItems S l
  | [] => Iff.rfl
  | a :: l => and_congr (wf_written a) (wf_writtenItems l)
theorem wfFields_map_written : ∀ d : List (PyKey × PyVal),
    Json.WFFields (d.map fun kv => (kv.1.text, written S kv.2)) ↔ StableEntries S d
  | [] => Iff.rfl
  | (_, a) :: d => and_congr (wf_written a) (wfFields_map_written d)
end

mutual
/-- The redaction pass leaves the keys alone. -/
theorem stable_walk (f : String → String) : ∀ p : PyVal, (walk f p).Stable S ↔ p.Stable S
  | .none => Iff.rfl
  | .bool _ => Iff.rfl
  | .int _ => Iff.rfl
  | .float _ => Iff.rfl
  | .str _ => Iff.rfl
  | .list l => stable_walkItems f l
  | .tuple _ => Iff.rfl
  | .dict d => by
    rw [walk, Stable, Stable, stable_walkEntries f d, walkEntries_eq_map, sortItems_map,
      List.map_map]
    rfl
theorem stable_walkItems (f : String → String) : ∀ l : List PyVal,
    StableItems S (walkItems f l) ↔ StableItems S l
  | [] => Iff.rfl
  | a :: l => and_congr (stable_walk f a) (stable_walkItems f l)
theorem stable_walkEntries (f : String → String) : ∀ d : List (PyKey × PyVal),
    StableEntries S (walkEntries f d) ↔ StableEntries S d
  | [] => Iff.rfl
  | (_, a) :: d => and_congr (stable_walk f a) (stable_walkEntries f d)
end

/-! ### JSON values -/

theorem sortItems_ofFields {d : List (String × Json)} (h : (d.map Prod.fst).Pairwise (· < ·)) :
    sortItems S (ofFields d) = ofFields d := by
  have hstr : ∀ kv ∈ ofFields d, kv.1.isStr = true ∧ kv.1.isNaN = false := by
    intro kv hkv
    clear h
    induction d with
    | nil => cases hkv
    | cons f d ih =>
      rcases List.mem_cons.1 hkv with rfl | hkv
      · exact ⟨rfl, rfl⟩
      · exact ih hkv
  have hall : ((ofFields d).map Prod.fst).all PyKey.isStr = true := by
    rw [List.all_map, List.all_eq_true]
    exact fun kv hkv => (hstr kv hkv).1
  rw [sortItems_eq_insertionSort (by rw [comparable, hall]; simp) fun kv hkv => (hstr kv hkv).2]
  clear hstr hall
  refine List.Pairwise.insertionSort_eq ?_
  induction d with
  | nil => exact List.Pairwise.nil
  | cons kv d ih =>
    obtain ⟨k, a⟩ := kv
    simp only [List.map_cons, List.pairwise_cons] at h
    have hmem : ∀ (d : List (String × Json)) (kv : PyKey × PyVal), kv ∈ ofFields d →
        ∃ k ∈ d.map Prod.fst, kv.1 = .str k := by
      intro d kv hkv
      induction d with
      | nil => cases hkv
      | cons f d ih =>
        rcases List.mem_cons.1 hkv with rfl | hkv
        · exact ⟨f.1, by simp, rfl⟩
        · obtain ⟨k, hk, heq⟩ := ih hkv
          exact ⟨k, List.mem_cons_of_mem _ hk, heq⟩
    refine List.pairwise_cons.2 ⟨fun kv hkv => ?_, ih h.2⟩
    obtain ⟨k', hk', heq⟩ := hmem d kv hkv
    have hlt : k < k' := h.1 k' hk'
    rw [heq]
    exact decide_eq_false (not_lt.2 hlt.le)

mutual
theorem written_ofJson : ∀ {j : Json}, j.WF → written S (ofJson j) = j
  | .null, _ => rfl
  | .bool _, _ => rfl
  | .int _, _ => rfl
  | .float _, _ => rfl
  | .str _, _ => rfl
  | .arr l, h => by rw [ofJson, written, writtenItems_ofItems (l := l) h]
  | .obj d, h => by
    rw [ofJson, written_dict, sortItems_ofFields h.1, written_ofFields (d := d) h.2]
theorem writtenItems_ofItems : ∀ {l : List Json}, Json.WFItems l → writtenItems S (ofItems l) = l
  | [], _ => rfl
  | _ :: _, h => by rw [ofItems, writtenItems, written_ofJson h.1, writtenItems_ofItems h.2]
theorem written_ofFields : ∀ {d : List (String × Json)}, Json.WFFields d →
    ((ofFields d).map fun kv => (kv.1.text, written S kv.2)) = d
  | [], _ => rfl
  | (_, _) :: _, h => by
    rw [ofFields, List.map_cons, written_ofFields h.2, written_ofJson h.1]
    rfl
end

mutual
theorem walk_ofJson (f : String → String) : ∀ j : Json, walk f (ofJson j) = ofJson (j.mapStr f)
  | .null => rfl
  | .bool _ => rfl
  | .int _ => rfl
  | .float _ => rfl
  | .str _ => rfl
  | .arr l => by rw [ofJson, walk, walkItems_ofItems f l, Json.mapStr, ofJson]
  | .obj d => by rw [ofJson, walk, walkEntries_ofFields f d, Json.mapStr, ofJson]
theorem walkItems_ofItems (f : String → String) : ∀ l : List Json,
    walkItems f (ofItems l) = ofItems (Json.mapItems f l)
  | [] => rfl
  | a :: l => by
    rw [ofItems, walkItems, walk_ofJson f a, walkItems_ofItems f l, Json.mapItems, ofItems]
theorem walkEntries_ofFields (f : String → String) : ∀ d : List (String × Json),
    walkEntries f (ofFields d) = ofFields (Json.mapFields f d)
  | [] => rfl
  | (_, a) :: d => by
    rw [ofFields, walkEntries, walk_ofJson f a, walkEntries_ofFields f d, Json.mapFields, ofFields]
end

mutual
theorem sortable_ofJson : ∀ j : Json, (ofJson j).sortable = true
  | .null => rfl
  | .bool _ => rfl
  | .int _ => rfl
  | .float _ => rfl
  | .str _ => rfl
  | .arr l => sortable_ofItems l
  | .obj d => by
    have hstr : ((ofFields d).map Prod.fst).all PyKey.isStr = true := by
      induction d with
      | nil => rfl
      | cons kv d ih => exact ih
    rw [ofJson, sortable, sortable_ofFields d, comparable, hstr]
    simp
theorem sortable_ofItems : ∀ l : List Json, sortableItems (ofItems l) = true
  | [] => rfl
  | a :: l => by rw [ofItems, sortableItems, sortable_ofJson a, sortable_ofItems l]; rfl
theorem sortable_ofFields : ∀ d : List (String × Json), sortableEntries (ofFields d) = true
  | [] => rfl
  | (_, a) :: d => by rw [ofFields, sortableEntries, sortable_ofJson a, sortable_ofFields d]; rfl
end

end PyVal

/-! ### Appending a value -/

variable (S : Sorter) (H : Host)

/-- `EventLog.append` of the object `i` for `e` with the payload `p`, cut short at `cut`. -/
def appendValue (i : ℕ) (e : EventEnvelope) (p : PyVal) (cut : Option Cut) : Op Json := do
  let scrubbed := p.walk H.scrub
  if scrubbed.sortable then
    appendScrubbed H i { e with payload := scrubbed.written S } cut
  else do
    -- `_prepared` raises when the envelope is hashed
    let w ← get
    if w.dir.lockfile then throw .lockHeld
    reach cut .acquire .lockHeld
    let _ ← loadHead H i cut
    modify e.stamp
    throw .typeError

/-- The host whose redaction pass changes nothing. -/
def Host.unscrubbed : Host := { H with scrub := id, scrub_encodes := fun _ h => h }

theorem EventEnvelope.scrubbed_unscrubbed (e : EventEnvelope) : e.scrubbed H.unscrubbed = e := by
  rw [EventEnvelope.scrubbed, show H.unscrubbed.scrub = id from rfl, Json.mapStr_id]

/-- An append of what is scrubbed already is one that scrubs no more. -/
theorem appendScrubbed_eq (i : ℕ) (e : EventEnvelope) (cut : Option Cut) :
    appendScrubbed H i e cut = append H.unscrubbed i e cut := by
  have hload : loadHead H.unscrubbed = loadHead H := rfl
  have hrow : mirrorRow H.unscrubbed = mirrorRow H := rfl
  have hprep : e.preparedAt H.unscrubbed = e.preparedAt H := rfl
  have hhash : e.hashAt H.unscrubbed = e.hashAt H := rfl
  rw [append, e.scrubbed_unscrubbed]
  unfold appendScrubbed
  rw [hload, hrow, hprep, hhash]
  rfl

/-- **On JSON values the append of a value is the append of the log.** -/
theorem appendValue_ofJson (i : ℕ) (e : EventEnvelope) (cut : Option Cut) (h : e.payload.WF) :
    appendValue S H i e (.ofJson e.payload) cut = append H i e cut := by
  have hs : (PyVal.ofJson (e.payload.mapStr H.scrub)).sortable = true := PyVal.sortable_ofJson _
  simp only [appendValue, PyVal.walk_ofJson, hs, if_true, PyVal.written_ofJson h.mapStr]
  rfl

/-- The directory as `json.loads` reads its lines back. -/
def LogDir.reread (d : LogDir) : LogDir :=
  { d with files := d.files.map fun f => (f.1, f.2.map Json.reread) }

variable {S H}

/-- The envelope of a value as it is written: keys in the order of the sorted keys. -/
def EventEnvelope.withValue (S : Sorter) (H : Host) (e : EventEnvelope) (p : PyVal) :
    EventEnvelope :=
  { e with payload := (p.walk H.scrub).written S }

/-- An append of a value by the object `i` that returns `env`: the head is loaded, the line and the
head are written and the row is mirrored. -/
structure AppendedValue (H : Host) (i : ℕ) (e : EventEnvelope) (w w₁ w' : World) (head : String)
    (env : Json) : Prop where
  loaded : Loaded H i w w₁ head
  env_eq : env = e.preparedAt H w₁ head
  valid : validateEnvelope true env = .ok ()
  dir : w'.dir = (w₁.dir.appendEvent (e.timestampAt H w₁) env).writeHead (hashEnvelope H env)
    (.str (e.eventIdAt H w₁))
  mirrored : mirrorRow H env w.db = .ok () w'.db

theorem appendValue_spec {w w' : World} {i : ℕ} {e : EventEnvelope} {p : PyVal} {env : Json}
    (call : appendValue S H i e p none w = .ok env w') :
    ∃ w₁ head, AppendedValue H i (e.withValue S H p) w w₁ w' head env := by
  unfold appendValue at call
  simp only at call
  split_ifs at call with hs
  · rw [appendScrubbed_eq] at call
    obtain ⟨w₁, head, ha⟩ := (Act.wp_of_ok call).1 (append_spec i (e.withValue S H p) none w)
    have henv : env = (e.withValue S H p).preparedAt H w₁ head := by
      rw [ha.env_eq, EventEnvelope.scrubbed_unscrubbed]
      rfl
    have hl : Loaded H i w w₁ head := ⟨ha.loaded.frame, ha.loaded.files, ha.loaded.lockfile,
      ha.loaded.headHash, ha.loaded.known, ha.loaded.fresh⟩
    refine ⟨w₁, head, hl, henv, ha.valid, ?_, ha.mirrored⟩
    have hhash : hashEnvelope H env = (e.withValue S H p).hashAt H w₁ head := by
      rw [henv]
      exact (e.withValue S H p).hashEnvelope_prepared _ _ _
    rw [ha.frame, hhash, sealedDir, lineDir, EventEnvelope.scrubbed_unscrubbed, henv]
    rfl
  · -- the refused value never returns
    refine ((Act.wp_of_ok (Q := fun _ _ => False) (E := fun _ _ => True) call).1 ?_).elim
    simp only [reach, Act.wp_bind, Act.wp_get, Act.wp_ite, Act.wp_throw, Act.wp_pure, Act.wp_modify]
    exact ⟨fun _ => trivial, fun _ => ⟨fun h => (by cases h), fun _ =>
      Act.wp_mono (loadHead_spec i none w) (fun _ _ _ => trivial) fun _ _ _ => trivial⟩⟩

/-! ### Reading a sealed value back -/

/-- No event lies in a file after the one of the timestamp. -/
def InPlace (d : LogDir) (timestamp : String) : Prop :=
  ∀ f ∈ d.files, f.2 ≠ [] → f.1 ≤ currentPath timestamp

/-- The log is a chain of lines as `json.loads` returns them, and `head.json` names its tip. -/
structure GoodLog (H : Host) (d : LogDir) : Prop where
  read : ∀ env ∈ d.iterEvents, env.WF
  chain : IsChain H d.iterEvents
  order : InOrder d.files
  head : d.headHash = tipHash H d.iterEvents

/-- What reading the log back needs: the envelope has the hash it states, and the walks along the
log, of `verify_chain` and of the first append of any later object, accept it. -/
structure ReadsBack (H : Host) (w : World) (env : Json) : Prop where
  rehash : env.reread.get "hash" = digestOf H env.reread
  verified : verifyChain H w.dir.reread = .ok ()
  first : ∀ i, w.recovered i = false →
    ∃ head w', loadHead H i none { w with dir := w.dir.reread } = .ok head w'

theorem LogDir.iterEvents_reread (d : LogDir) :
    d.reread.iterEvents = d.iterEvents.map Json.reread := by
  simp only [LogDir.iterEvents, LogDir.reread, List.flatMap_map, List.map_flatMap]

theorem LogDir.reread_eq_self {d : LogDir} (h : ∀ env ∈ d.iterEvents, env.WF) : d.reread = d := by
  have hfiles : d.files.map (fun f => (f.1, f.2.map Json.reread)) = d.files := by
    refine (List.map_congr_left fun f hf => ?_).trans (List.map_id _)
    have hlines : f.2.map Json.reread = f.2 :=
      (List.map_congr_left fun env henv => (h env (List.mem_flatMap.2 ⟨f, hf, henv⟩)).reread).trans
        (List.map_id _)
    rw [hlines, id]
  rw [LogDir.reread, hfiles]

namespace EventEnvelope

variable (e : EventEnvelope) (eventId timestamp previousHash : String)

theorem reread_prepared : (e.prepared H eventId timestamp previousHash).reread =
    .mkObj (("hash", .str (e.hash H eventId timestamp previousHash)) ::
      { e with payload := e.payload.reread }.fields eventId timestamp previousHash) := by
  have hopt : ∀ t : Option String, (Json.ofOption t).reread = .ofOption t := by
    intro t
    cases t <;> rfl
  rw [prepared, Json.reread_mkObj]
  simp only [fields, List.map_cons, List.map_nil, hopt, Json.reread]

/-- An envelope is read back as it was iff its payload is. -/
theorem reread_prepared_eq_self : (e.prepared H eventId timestamp previousHash).reread =
    e.prepared H eventId timestamp previousHash ↔ e.payload.WF := by
  rw [← Json.reread_eq_self (j := e.payload)]
  constructor
  · intro h
    have hget := congrArg (Json.get · "payload") h
    rw [reread_prepared] at hget
    simpa [prepared, fields, List.lookup] using hget
  · intro h
    rw [reread_prepared, h]
    rfl

end EventEnvelope

section

variable {i : ℕ} {e : EventEnvelope} {p : PyVal} {w w₁ w' : World} {head : String} {env : Json}

namespace AppendedValue

theorem keySorted (h : AppendedValue H i e w w₁ w' head env) : env.KeySorted := by
  rw [h.env_eq]
  exact Json.KeySorted.mkObj _

theorem isSealed (h : AppendedValue H i e w w₁ w' head env) : IsSealed H env := by
  have hv := h.valid
  rw [h.env_eq] at hv ⊢
  exact isSealed_preparedAt hv

/-- The line is one more of the log, wherever its file lies. -/
theorem perm (h : AppendedValue H i e w w₁ w' head env) :
    w'.dir.iterEvents.Perm (w.dir.iterEvents ++ [env]) := by
  rw [h.dir, LogDir.iterEvents_writeHead]
  refine (appendLine_perm _ _ _).trans ?_
  rw [h.loaded.files]
  exact List.Perm.refl _

/-- The envelope that is read back has the hash it states iff it is the envelope that was
sealed. -/
theorem rehash_iff (h : AppendedValue H i e w w₁ w' head env)
    (hcol : NoCollision H [env, env.reread]) :
    env.reread.get "hash" = digestOf H env.reread ↔ env.reread = env := by
  have hget : env.reread.get "hash" = env.get "hash" := by
    rw [h.env_eq, EventEnvelope.preparedAt, EventEnvelope.reread_prepared,
      EventEnvelope.get_hash_prepared]
    simp
  have hsorted : env.reread.KeySorted := (Json.wf_reread env).keySorted
  constructor
  · intro hhash
    have hdigest : hashEnvelope H env.reread = hashEnvelope H env :=
      Json.str.inj (hhash.symm.trans (hget.trans h.isSealed.2))
    have hsha : H.sha256 ((env.reread.erase "hash").dumps true) =
        H.sha256 ((env.erase "hash").dumps true) := by
      have h' := congrArg String.toList hdigest
      simp only [hashEnvelope, String.toList_append, List.append_cancel_left_eq] at h'
      exact String.toList_injective h'
    have herase : env.reread.erase "hash" = env.erase "hash" :=
      Json.dumps_injective true (hcol _ (by simp) _ (by simp) hsha)
    exact Json.eq_of_erase_eq hsorted h.keySorted herase hget (by rw [hget, h.isSealed.2]; rfl)
  · intro heq
    rw [heq]
    exact h.isSealed.2

theorem reread_eq_self_iff (h : AppendedValue H i (e.withValue S H p) w w₁ w' head env) :
    env.reread = env ↔ p.Stable S := by
  rw [h.env_eq, EventEnvelope.preparedAt, EventEnvelope.reread_prepared_eq_self,
    EventEnvelope.withValue, PyVal.wf_written, PyVal.stable_walk]

theorem timestampAt_eq (h : AppendedValue H i (e.withValue S H p) w w₁ w' head env) :
    (e.withValue S H p).timestampAt H w₁ = e.timestampAt H w := by
  rw [h.loaded.frame]
  rfl

theorem iterEvents_eq (h : AppendedValue H i (e.withValue S H p) w w₁ w' head env) :
    w'.dir.iterEvents =
      (appendLine (currentPath (e.timestampAt H w)) env w.dir.files).flatMap (·.2) := by
  rw [← h.timestampAt_eq, h.dir, LogDir.iterEvents_writeHead, ← h.loaded.files]
  rfl

/-- The line at the end of a good log makes the log longer. -/
theorem isChain_concat (h : AppendedValue H i e w w₁ w' head env) (hgood : GoodLog H w.dir) :
    IsChain H (w.dir.iterEvents ++ [env]) := by
  refine Shiroe.isChain_concat.2 ⟨hgood.chain, h.isSealed, ?_⟩
  rw [← h.loaded.head_eq (Or.inr hgood.head), h.env_eq]
  exact e.prevOf_prepared _ _ _

theorem wf_lines (h : AppendedValue H i e w w₁ w' head env) (hgood : GoodLog H w.dir)
    (heq : env.reread = env) : ∀ line ∈ w'.dir.iterEvents, line.WF := by
  intro line hline
  rcases List.mem_append.1 (h.perm.subset hline) with hline | hline
  · exact hgood.read line hline
  · rw [List.mem_singleton.1 hline]
    exact Json.reread_eq_self.1 heq

end AppendedValue

/-- A line that comes last in the log lies in a file that no event lies after. -/
theorem inPlace_of_last {path : List String} {files : List (List String × List Json)}
    (hord : InOrder files) (hnew : env ∉ files.flatMap (·.2))
    (hlast : (appendLine path env files).flatMap (·.2) = files.flatMap (·.2) ++ [env]) :
    ∀ f ∈ files, f.2 ≠ [] → f.1 ≤ path := by
  -- a line in front of others is the last one only when there are no others
  have hfront : ∀ {l : List Json}, env ∉ l → env :: l = l ++ [env] → l = [] := by
    intro l hl h
    cases l with
    | nil => rfl
    | cons a l =>
      rw [List.cons_append, List.cons.injEq] at h
      exact absurd (List.mem_cons.2 (Or.inl h.1)) hl
  have hnone : ∀ {l : List (List String × List Json)}, l.flatMap (·.2) = [] → ∀ f ∈ l, f.2 = [] :=
    fun hl f hf => List.flatMap_eq_nil_iff.1 hl f hf
  induction files with
  | nil => simp
  | cons f files ih =>
    obtain ⟨q, lines⟩ := f
    simp only [InOrder, List.map_cons, List.pairwise_cons] at hord
    rw [List.flatMap_cons, List.mem_append, not_or] at hnew
    rw [appendLine] at hlast
    split_ifs at hlast with heq hlt
    · simp only [List.flatMap_cons, List.append_assoc, List.append_cancel_left_eq,
        List.singleton_append] at hlast
      have hrest := hnone (hfront hnew.2 hlast)
      intro g hg hne
      rcases List.mem_cons.1 hg with rfl | hg
      · exact heq.ge
      · exact absurd (hrest g hg) hne
    · simp only [List.flatMap_cons, List.singleton_append] at hlast
      have hall := hnone (l := (q, lines) :: files)
        (hfront (l := lines ++ files.flatMap (·.2)) (by simpa using hnew) hlast)
      exact fun g hg hne => absurd (hall g hg) hne
    · simp only [List.flatMap_cons, List.append_assoc, List.append_cancel_left_eq] at hlast
      intro g hg hne
      rcases List.mem_cons.1 hg with rfl | hg
      · exact not_lt.1 hlt
      · exact ih hord.2 hnew.2 hlast g hg hne

namespace AppendedValue

theorem inPlace (h : AppendedValue H i (e.withValue S H p) w w₁ w' head env)
    (hgood : GoodLog H w.dir) (heq : env.reread = env)
    (hcol : NoCollision H w'.dir.iterEvents) (hchain : IsChain H w'.dir.iterEvents) :
    InPlace w.dir (e.timestampAt H w) := by
  have hwf := h.wf_lines hgood heq
  have hnew := h.isChain_concat hgood
  have hsorted : ∀ line ∈ w.dir.iterEvents ++ [env], line.KeySorted := fun line hline =>
    (hwf line (h.perm.symm.subset hline)).keySorted
  have hcol' : NoCollision H (w.dir.iterEvents ++ [env]) := hcol.subset h.perm.symm.subset
  have hsame := hnew.eq_of_perm hchain h.perm.symm hsorted hcol'
  -- no event of a chain is there twice, so the new line is not one of the old ones
  have hnodup := hnew.2.nodup (fun line _ => digestOf_ne_genesis line)
    (NoCollision.digestOf_inj (hcol'.subset (by simp)) (fun line hline =>
      ⟨hnew.1 line hline, hsorted line hline⟩) fun line hline =>
      ⟨hnew.1 line hline, hsorted line hline⟩)
  have hfresh : env ∉ w.dir.iterEvents := fun hmem =>
    (List.nodup_append.1 hnodup).2.2 env hmem env (by simp) rfl
  refine inPlace_of_last hgood.order hfresh ?_
  rw [← h.iterEvents_eq, ← hsame]
  rfl

theorem readsBack (h : AppendedValue H i (e.withValue S H p) w w₁ w' head env)
    (hgood : GoodLog H w.dir) (heq : env.reread = env)
    (hplace : InPlace w.dir (e.timestampAt H w)) : ReadsBack H w' env := by
  have hevents : w'.dir.iterEvents = w.dir.iterEvents ++ [env] := by
    rw [h.iterEvents_eq, appendLine_end hgood.order hplace]
    rfl
  have hsame : w'.dir.reread = w'.dir := LogDir.reread_eq_self (h.wf_lines hgood heq)
  have hchain : IsChain H w'.dir.iterEvents := hevents ▸ h.isChain_concat hgood
  have hhead : w'.dir.head = some
      ⟨hashEnvelope H env, .str ((e.withValue S H p).eventIdAt H w₁)⟩ := by
    rw [h.dir]
    rfl
  refine ⟨by rw [heq]; exact h.isSealed.2, ?_, fun j hj => ?_⟩
  · rw [hsame]
    refine verifyChain_eq_ok.2 ⟨hchain, fun _ hd hhd => ?_⟩
    rw [hhead] at hhd
    cases hhd
    rw [hevents, tipHash_concat]
  · rw [hsame]
    have hknown : HeadKnown w'.dir := by
      intro hd hhd
      rw [hhead] at hhd
      cases hhd
      refine Or.inr (List.mem_map.2 ⟨env, ?_, h.isSealed.2⟩)
      rw [hevents]
      simp
    have hheals := loadHead_heals (w := w') hj hchain hknown
    cases hr : loadHead H j none w' with
    | ok head' w'' => exact ⟨head', w'', rfl⟩
    | error x w'' => exact ((Act.wp_of_error hr).1 hheals).elim

end AppendedValue

/-- A sorter that compares every two neighbours. -/
def stableSorter : Sorter where
  order := stableOrder
  perm keys := by
    refine ((List.perm_insertionSort _ keys.zipIdx).map Prod.snd).trans ?_
    rw [List.zipIdx_map_snd, List.range_eq_range']
  stable _ _ _ := rfl

/-- A payload with a dict under `output` whose two keys are integers. -/
def numbered (first : ℤ) : PyVal :=
  .dict [(.str "output", .dict [(.int first, .str "a"), (.int (first + 1), .str "b")])]

/-- U+1F600 held as two surrogates comes before U+FF5E, and after it when it is read back. -/
example : ¬ PyVal.Stable stableSorter (.dict [(.split [⟨Char.ofNat 0x1F600, true⟩], .int 1),
    (.split [⟨Char.ofNat 0xFF5E, false⟩], .int 2)]) := fun h => absurd h.1 (by decide +kernel)

end

end Shiroe
