import Shiroe.Storage.Values

/-!
# What the redaction pass reaches

`_scrub_payload` walks the dicts and lists of a payload.  It passes over tuples, which `json.dumps`
writes as arrays, and the envelope fields beside the payload are never given to it.

* `redacted_iff` : every string value of a sealed envelope is what the redaction pass makes of the
  submitted one exactly when the pass changes none of the strings that it does not see.
-/

namespace Shiroe

namespace PyVal

variable (f : String → String)

mutual
/-- Every string value goes through `f`, whatever it lies in. -/
def scrubAll : PyVal → PyVal
  | .str s => .str (f s)
  | .list l => .list (scrubAllItems l)
  | .tuple l => .tuple (scrubAllItems l)
  | .dict d => .dict (scrubAllEntries d)
  | v => v
/-- `scrubAll` on the items of a list. -/
def scrubAllItems : List PyVal → List PyVal
  | [] => []
  | a :: l => scrubAll a :: scrubAllItems l
/-- `scrubAll` on the values of a dict. -/
def scrubAllEntries : List (PyKey × PyVal) → List (PyKey × PyVal)
  | [] => []
  | (k, a) :: d => (k, scrubAll a) :: scrubAllEntries d
end

mutual
/-- `f` changes no string of the value. -/
def Fixed : PyVal → Prop
  | .str s => f s = s
  | .list l => FixedItems l
  | .tuple l => FixedItems l
  | .dict d => FixedEntries d
  | _ => True
/-- `Fixed` for the items of a list. -/
def FixedItems : List PyVal → Prop
  | [] => True
  | a :: l => Fixed a ∧ FixedItems l
/-- `Fixed` for the values of a dict. -/
def FixedEntries : List (PyKey × PyVal) → Prop
  | [] => True
  | (_, a) :: d => Fixed a ∧ FixedEntries d
end

mutual
/-- `f` changes no string that lies in a tuple. -/
def TuplesFixed : PyVal → Prop
  | .list l => TuplesFixedItems l
  | .tuple l => FixedItems f l
  | .dict d => TuplesFixedEntries d
  | _ => True
/-- `TuplesFixed` for the items of a list. -/
def TuplesFixedItems : List PyVal → Prop
  | [] => True
  | a :: l => TuplesFixed a ∧ TuplesFixedItems l
/-- `TuplesFixed` for the values of a dict. -/
def TuplesFixedEntries : List (PyKey × PyVal) → Prop
  | [] => True
  | (_, a) :: d => TuplesFixed a ∧ TuplesFixedEntries d
end

variable {f} {S : Sorter}

theorem scrubAllEntries_eq_map (d : List (PyKey × PyVal)) :
    scrubAllEntries f d = d.map fun kv => (kv.1, scrubAll f kv.2) := by
  induction d with
  | nil => rfl
  | cons kv d ih => rw [scrubAllEntries, ih, List.map_cons]

/-- Two dicts that differ in their values only are written the same iff their values are. -/
theorem written_dict_eq_iff {g g' : PyVal → PyVal} (d : List (PyKey × PyVal)) :
    written S (.dict (d.map fun kv => (kv.1, g kv.2))) =
        written S (.dict (d.map fun kv => (kv.1, g' kv.2))) ↔
      ∀ kv ∈ d, written S (g kv.2) = written S (g' kv.2) := by
  simp only [written_dict, sortItems_map, List.map_map, Json.obj.injEq]
  rw [List.map_inj_left]
  simp only [mem_sortItems, Function.comp_apply, Prod.mk.injEq, true_and]

mutual
theorem written_scrubAll_eq_self : ∀ p : PyVal,
    written S p = written S (scrubAll f p) ↔ Fixed f p
  | .none => by simp [scrubAll, Fixed]
  | .bool _ => by simp [scrubAll, Fixed]
  | .int _ => by simp [scrubAll, Fixed]
  | .float _ => by simp [scrubAll, Fixed]
  | .str s => by simp [scrubAll, Fixed, written, eq_comm]
  | .list l => by
    rw [scrubAll, written, written, Json.arr.injEq, writtenItems_scrubAll_eq_self l, Fixed]
  | .tuple l => by
    rw [scrubAll, written, written, Json.arr.injEq, writtenItems_scrubAll_eq_self l, Fixed]
  | .dict d => by
    have hself : d = d.map fun kv => (kv.1, id kv.2) := (List.map_id d).symm
    rw [scrubAll, scrubAllEntries_eq_map, Fixed, ← entries_scrubAll_eq_self d]
    conv_lhs => lhs; rw [hself]
    exact written_dict_eq_iff d
theorem writtenItems_scrubAll_eq_self : ∀ l : List PyVal,
    writtenItems S l = writtenItems S (scrubAllItems f l) ↔ FixedItems f l
  | [] => by simp [scrubAllItems, FixedItems]
  | a :: l => by
    rw [scrubAllItems, writtenItems, writtenItems, List.cons.injEq, written_scrubAll_eq_self a,
      writtenItems_scrubAll_eq_self l, FixedItems]
theorem entries_scrubAll_eq_self : ∀ d : List (PyKey × PyVal),
    (∀ kv ∈ d, written S kv.2 = written S (scrubAll f kv.2)) ↔ FixedEntries f d
  | [] => by simp [FixedEntries]
  | (_, a) :: d => by
    rw [List.forall_mem_cons, written_scrubAll_eq_self a, entries_scrubAll_eq_self d, FixedEntries]
end

mutual
/-- **The walk reaches every string exactly when the strings in tuples need no redaction.** -/
theorem written_walk_eq_scrubAll : ∀ p : PyVal,
    written S (walk f p) = written S (scrubAll f p) ↔ TuplesFixed f p
  | .none => by simp [walk, scrubAll, TuplesFixed]
  | .bool _ => by simp [walk, scrubAll, TuplesFixed]
  | .int _ => by simp [walk, scrubAll, TuplesFixed]
  | .float _ => by simp [walk, scrubAll, TuplesFixed]
  | .str _ => by simp [walk, scrubAll, TuplesFixed]
  | .list l => by
    rw [walk, scrubAll, written, written, Json.arr.injEq, writtenItems_walk_eq_scrubAll l,
      TuplesFixed]
  | .tuple l => by
    rw [walk, scrubAll, written, written, Json.arr.injEq, writtenItems_scrubAll_eq_self l,
      TuplesFixed]
    all_goals simp
  | .dict d => by
    rw [walk, scrubAll, walkEntries_eq_map, scrubAllEntries_eq_map, TuplesFixed,
      written_dict_eq_iff, entries_walk_eq_scrubAll d]
theorem writtenItems_walk_eq_scrubAll : ∀ l : List PyVal,
    writtenItems S (walkItems f l) = writtenItems S (scrubAllItems f l) ↔ TuplesFixedItems f l
  | [] => by simp [walkItems, scrubAllItems, TuplesFixedItems]
  | a :: l => by
    rw [walkItems, scrubAllItems, writtenItems, writtenItems, List.cons.injEq,
      written_walk_eq_scrubAll a, writtenItems_walk_eq_scrubAll l, TuplesFixedItems]
theorem entries_walk_eq_scrubAll : ∀ d : List (PyKey × PyVal),
    (∀ kv ∈ d, written S (walk f kv.2) = written S (scrubAll f kv.2)) ↔ TuplesFixedEntries f d
  | [] => by simp [TuplesFixedEntries]
  | (_, a) :: d => by
    rw [List.forall_mem_cons, written_walk_eq_scrubAll a, entries_walk_eq_scrubAll d,
      TuplesFixedEntries]
end

end PyVal

variable {S : Sorter} {H : Host} {e : EventEnvelope} {p : PyVal} {env : Json}

/-- Every string value of the sealed envelope is what the redaction pass returns for the submitted
one. -/
structure Redacted (S : Sorter) (H : Host) (e : EventEnvelope) (p : PyVal) (env : Json) : Prop where
  actor : env.get "actor" = .str (H.scrub e.actor)
  target : env.get "target" = .ofOption (e.target.map H.scrub)
  runId : env.get "run_id" = .ofOption (e.runId.map H.scrub)
  payload : env.get "payload" = (p.scrubAll H.scrub).written S

/-- The redaction pass would change none of the strings that it is not given. -/
structure Harmless (H : Host) (e : EventEnvelope) (p : PyVal) : Prop where
  actor : H.scrub e.actor = e.actor
  target : e.target.map H.scrub = e.target
  runId : e.runId.map H.scrub = e.runId
  tuples : p.TuplesFixed H.scrub

theorem ofOption_inj {a b : Option String} : Json.ofOption a = .ofOption b ↔ a = b := by
  cases a <;> cases b <;> simp [Json.ofOption]

theorem redacted_preparedAt (w : World) (head : String) :
    Redacted S H e p ((e.withValue S H p).preparedAt H w head) ↔ Harmless H e p := by
  have hget : ∀ k, ((e.withValue S H p).preparedAt H w head).get k =
      ((("hash", Json.str ((e.withValue S H p).hashAt H w head)) ::
        (e.withValue S H p).fields ((e.withValue S H p).eventIdAt H w)
          ((e.withValue S H p).timestampAt H w) head).lookup k).getD .null :=
            fun k => Json.get_mkObj _ k
  constructor
  · rintro ⟨hactor, htarget, hrun, hpayload⟩
    rw [hget] at hactor htarget hrun hpayload
    simp only [EventEnvelope.fields, EventEnvelope.withValue, List.lookup, Option.getD_some,
      String.reduceBEq, Json.str.injEq, ofOption_inj] at hactor htarget hrun hpayload
    exact ⟨hactor.symm, htarget.symm, hrun.symm, PyVal.written_walk_eq_scrubAll p |>.1 hpayload⟩
  · rintro ⟨hactor, htarget, hrun, htuples⟩
    have hpayload := (PyVal.written_walk_eq_scrubAll (S := S) (f := H.scrub) p).2 htuples
    refine ⟨?_, ?_, ?_, ?_⟩ <;> rw [hget] <;>
      simp only [EventEnvelope.fields, EventEnvelope.withValue, List.lookup, Option.getD_some,
        String.reduceBEq, hactor, htarget, hrun, hpayload]

/-- The lines after an append of a value, however it ends: the old ones and the sealed envelope. -/
def LinesOf (S : Sorter) (H : Host) (e : EventEnvelope) (p : PyVal) (w w' : World) : Prop :=
  ∀ env ∈ w'.dir.iterEvents, env ∈ w.dir.iterEvents ∨
    ∃ w₁ head, env = (e.withValue S H p).preparedAt H w₁ head

theorem linesOf_of_files {w w' : World} (h : w'.dir.files = w.dir.files) : LinesOf S H e p w w' :=
  fun _ henv => Or.inl (LogDir.iterEvents_congr h ▸ henv)

theorem linesOf_lineDir {w w₁ w' : World} {i : ℕ} {head : String}
    (hl : Loaded H.unscrubbed i w w₁ head)
    (h : w'.dir.iterEvents = (lineDir H.unscrubbed (e.withValue S H p) w₁ head).iterEvents) :
    LinesOf S H e p w w' := by
  intro env henv
  rw [h] at henv
  have hmem := (appendLine_perm _ _ _).subset henv
  rw [hl.files, EventEnvelope.scrubbed_unscrubbed] at hmem
  rcases List.mem_append.1 hmem with hmem | hmem
  · exact Or.inl hmem
  · exact Or.inr ⟨w₁, head, List.mem_singleton.1 hmem⟩

theorem linesOf_appendValue (i : ℕ) (cut : Option Cut) (w : World) :
    LinesOf S H e p w (Act.final (appendValue S H i e p cut) w) := by
  refine Act.wp_final (I := LinesOf S H e p w) ?_
  unfold appendValue
  simp only
  split_ifs with hs
  · rw [appendScrubbed_eq]
    refine Act.wp_mono (append_spec i (e.withValue S H p) cut w) ?_ ?_
    · rintro _ w' ⟨w₁, head, ha⟩
      exact linesOf_lineDir ha.loaded (by rw [ha.frame]; rfl)
    · rintro x w' (⟨hdir, -⟩ | ⟨w₁, head, hl, hdir, -⟩ | ⟨w₁, head, hl, -, hdir, -, -⟩ |
        ⟨w₁, head, hl, -, hdir, -, -⟩)
      · exact linesOf_of_files (by rw [hdir])
      · exact linesOf_of_files (by rw [hdir, hl.files])
      · exact linesOf_lineDir hl (by rw [hdir])
      · exact linesOf_lineDir hl (by rw [hdir]; rfl)
  · simp only [reach, Act.wp_bind, Act.wp_get, Act.wp_ite, Act.wp_throw, Act.wp_pure, Act.wp_modify]
    refine ⟨fun _ => linesOf_of_files rfl, fun _ => ⟨fun _ => linesOf_of_files rfl, fun _ => ?_⟩⟩
    refine Act.wp_mono (loadHead_spec i cut w) (fun head w₁ hl => ?_) fun _ w₁ h => ?_
    · exact linesOf_of_files hl.files
    · rw [h]
      exact linesOf_of_files rfl

/-- **What reaches the disk went through the redaction pass iff the pass would change none of the
strings it is not given**: the line of the log, however the append ends, and the mirrored row, which
is made of the same envelope. -/
theorem redacted_iff (S : Sorter) (H : Host) (i : ℕ) (e : EventEnvelope) (p : PyVal)
    (cut : Option Cut)
    (w : World) :
    (∀ env ∈ (Act.final (appendValue S H i e p cut) w).dir.iterEvents, env ∉ w.dir.iterEvents →
      (Redacted S H e p env ↔ Harmless H e p)) ∧
    ∀ env w', appendValue S H i e p none w = .ok env w' →
      env ∈ w'.dir.iterEvents ∧ mirrorRow H env w.db = .ok () w'.db ∧
        (Redacted S H e p env ↔ Harmless H e p) := by
  refine ⟨fun env henv hnew => ?_, fun env w' call => ?_⟩
  · obtain ⟨w₁, head, rfl⟩ := (linesOf_appendValue i cut w env henv).resolve_left hnew
    exact redacted_preparedAt w₁ head
  · obtain ⟨w₁, head, h⟩ := appendValue_spec call
    refine ⟨h.perm.symm.subset (by simp), h.mirrored, ?_⟩
    rw [h.env_eq]
    exact redacted_preparedAt w₁ head

/-- A redaction pass that knows one mail address. -/
def scrubMail (s : String) : String := if s = "ann@example.org" then "[PII:email]" else s

/-- A payload with the address in a dict and in a list, and a tuple without it. -/
def mailPayload : PyVal :=
  .dict [(.str "owner", .dict [(.str "mail", .str "ann@example.org")]),
    (.str "cc", .list [.str "ann@example.org", .int 2]), (.str "pair", .tuple [.str "a", .str "b"])]

/-- The append of that payload returns an event with both addresses masked. -/
theorem mail_run : ((Act.result?
    (appendValue stableSorter (Host.plain scrubMail) 0 startedEnvelope mailPayload
    none) emptyWorld).any fun env => env.get "payload" = .mkObj [
      ("owner", .mkObj [("mail", .str "[PII:email]")]),
      ("cc", .arr [.str "[PII:email]", .int 2]), ("pair", .arr [.str "a", .str "b"])]) = true := by
  decide +kernel

/-- Addresses in dicts and lists are masked, and the rest of the event needs no redaction. -/
theorem redacted_mail :
    ∃ env w', appendValue stableSorter (Host.plain scrubMail) 0 startedEnvelope mailPayload none
      emptyWorld =
      .ok env w' ∧ env ∈ w'.dir.iterEvents ∧
        Redacted stableSorter (Host.plain scrubMail) startedEnvelope mailPayload env ∧
        env.get "payload" = .mkObj [("owner", .mkObj [("mail", .str "[PII:email]")]),
          ("cc", .arr [.str "[PII:email]", .int 2]), ("pair", .arr [.str "a", .str "b"])] := by
  obtain ⟨env, hresult, hpayload⟩ := (Option.any_eq_true _ _).1 mail_run
  cases call : appendValue stableSorter (Host.plain scrubMail) 0 startedEnvelope mailPayload none
    emptyWorld with
  | error x w' =>
    rw [Act.result?, call] at hresult
    cases hresult
  | ok env' w' =>
    rw [Act.result?, call] at hresult
    obtain rfl : env' = env := Option.some.inj hresult
    obtain ⟨hline, hreturns⟩ :=
      redacted_iff stableSorter (Host.plain scrubMail) 0 startedEnvelope mailPayload none emptyWorld
    obtain ⟨hmem, -, -⟩ := hreturns env' w' call
    refine ⟨env', w', rfl, hmem, (hline env' ?_ nofun).2 ⟨rfl, rfl, rfl, ?_⟩,
      of_decide_eq_true hpayload⟩
    · rwa [Act.final_of_ok call]
    · exact ⟨⟨trivial, trivial⟩, ⟨trivial, trivial, trivial⟩, ⟨rfl, rfl, trivial⟩, trivial⟩

/-- The event that a record of an owner with a mail address leaves. -/
def ownedEnvelope : EventEnvelope where
  eventType := "memory.written"
  actor := "ann@example.org"
  payload := .null
  target := some "memory:m"

/-- The owner's mail address is sealed as the actor of the event. -/
theorem redacted_not_owner :
    ∃ env w', appendValue stableSorter (Host.plain scrubMail) 0 ownedEnvelope
        (.dict [(.str "owner", .str "ann@example.org")]) none emptyWorld = .ok env w' ∧
      ¬ Redacted stableSorter (Host.plain scrubMail) ownedEnvelope
        (.dict [(.str "owner", .str "ann@example.org")]) env := by
  obtain ⟨env, w', call⟩ := Act.exists_ok
    (x := appendValue stableSorter (Host.plain scrubMail) 0 ownedEnvelope
      (.dict [(.str "owner", .str "ann@example.org")]) none) (s := emptyWorld) (by decide +kernel)
  refine ⟨env, w', call, fun h => ?_⟩
  obtain ⟨w₁, head, ha⟩ := appendValue_spec call
  have hactor := (((redacted_preparedAt w₁ head).1 (ha.env_eq ▸ h)).actor :
    scrubMail "ann@example.org" = "ann@example.org")
  exact absurd hactor (by decide)

end Shiroe
