import Shiroe.Memory.Reads
import Shiroe.Lib.Run

/-!
# Contradicting records

The gate of a write compares the proposed claim with the active records, and the record is stored
later, under no lock.  What is stored is what the redaction pass leaves of the claim, so the
comparison is between a claim as it was submitted and claims as they were stored.

A run is a list of the steps of any number of writers: the check of a proposal, the write that
follows it, and records superseded and archived.

* `memory_consistent` : no two active records were submitted with opposite claims, as long as the
  redaction pass leaves the opposition keys alone and no record becomes active between a check and
  its write;
* `opposite_records` : what happens when an address in the claims is masked, and when two checks
  come before the two writes.
-/

namespace Shiroe

open Act

variable (T : TextTools) (H : Host)

/-- A write between its check and its store. -/
structure PendingWrite where
  proposal : MemoryWrite
  /-- Why the gate rejects the proposal, if it does. -/
  reason : Option String
  /-- The records at the check. -/
  seen : List RecordRow

/-- The memory and its writers. -/
structure MemoryState where
  world : World
  /-- The writes that are under way, by writer. -/
  pending : ℕ → Option PendingWrite
  /-- The claims that were let through, each with the id of its record. -/
  submissions : List (SqlVal × String)

/-- A step of one of the writers. -/
inductive MemoryCall where
  | check (writer : ℕ) (p : MemoryWrite)
  | store (writer : ℕ)
  | supersede (i : ℕ) (id actor : String)
  | archive (i : ℕ) (id actor : String)

/-- The state after a step. -/
def memoryStep (s : MemoryState) : MemoryCall → MemoryState
  | .check writer p =>
    let db := s.world.db
    let c : PendingWrite := ⟨p, gateReason T H db p, db.memoryRecords⟩
    { s with pending := Function.update s.pending writer (some c) }
  | .store writer =>
    match s.pending writer with
    | none => s
    | some c =>
      let id := SqlVal.text (H.scrub (nextMemoryId H s.world))
      { world := Act.final (storeProposal H writer c.proposal c.reason) s.world
        pending := Function.update s.pending writer none
        submissions :=
          if c.reason = none then s.submissions ++ [(id, c.proposal.claim)] else s.submissions }
  | .supersede i id actor => { s with world := Act.final (supersedeMemory H i id actor) s.world }
  | .archive i id actor => { s with world := Act.final (archiveMemory H i id actor) s.world }

/-- A row is listed as active and unarchived. -/
abbrev RecordRow.Active (r : RecordRow) : Prop := ListArgs.Selects {} r

/-- The claim was submitted for the record, and the record holds what is left of it. -/
def MemoryState.Submitted (s : MemoryState) (r : RecordRow) (claim : String) : Prop :=
  (r.id, claim) ∈ s.submissions ∧ r.claim = .text (H.scrub claim)

instance (s : MemoryState) (r : RecordRow) (claim : String) : Decidable (s.Submitted H r claim) :=
  inferInstanceAs (Decidable (_ ∧ _))

/-- An active record was submitted with the claim. -/
def MemoryState.Holds (s : MemoryState) (claim : String) : Prop :=
  ∃ r ∈ s.world.db.memoryRecords, r.Active ∧ s.Submitted H r claim

instance (s : MemoryState) (claim : String) : Decidable (s.Holds H claim) :=
  inferInstanceAs (Decidable (∃ r ∈ s.world.db.memoryRecords, _))

/-- Every record was submitted with some claim, and no two active records were submitted with claims
that oppose each other. -/
structure Consistent (s : MemoryState) : Prop where
  submitted : ∀ r ∈ s.world.db.memoryRecords, ∃ claim, s.Submitted H r claim
  unopposed : ∀ claim claim', s.Holds H claim → s.Holds H claim' →
    ¬ Opposed (oppositionKey T claim) (oppositionKey T claim')

/-- What the claim theorem asks of a step: a claim that is stored keeps its opposition key, and
every record that is active then was there at the check. -/
def MemoryCall.Meets (s : MemoryState) : MemoryCall → Prop
  | .store writer => ∀ c, s.pending writer = some c → c.reason = none →
    oppositionKey T (H.scrub c.proposal.claim) = oppositionKey T c.proposal.claim ∧
      ∀ r ∈ s.world.db.memoryRecords, r.Active → r ∈ c.seen
  | _ => True

/-! ### The invariant -/

/-- The opposition key of the claim as it is stored. -/
def RecordRow.key (r : RecordRow) : Option (String × Polarity) :=
  oppositionKey T (pyStr r.claim.read)

/-- What every step keeps. -/
structure MemoryInv (s : MemoryState) : Prop where
  submitted : ∀ r ∈ s.world.db.memoryRecords, ∃ claim, s.Submitted H r claim
  keys : ∀ x ∈ s.submissions, oppositionKey T (H.scrub x.2) = oppositionKey T x.2
  unopposed : ∀ r ∈ s.world.db.memoryRecords, ∀ r' ∈ s.world.db.memoryRecords,
    r.Active → r'.Active → ¬ Opposed (r.key T) (r'.key T)
  checked : ∀ writer c, s.pending writer = some c → c.reason = none →
    ∀ r ∈ c.seen, r.Active → ¬ Opposed (oppositionKey T c.proposal.claim) (r.key T)

variable {T H}

theorem Opposed.symm {a b : Option (String × Polarity)} (h : Opposed a b) : Opposed b a := by
  obtain ⟨subject, p, q, ha, hb, hne⟩ := h
  exact ⟨subject, q, p, hb, ha, hne.symm⟩

theorem not_opposed_self (a : Option (String × Polarity)) : ¬ Opposed a a := by
  rintro ⟨subject, p, q, ha, hb, hne⟩
  rw [ha, Option.some.injEq, Prod.mk.injEq] at hb
  exact hne hb.2

theorem RecordRow.key_of_claim {r : RecordRow} {claim : String} (h : r.claim = .text claim) :
    r.key T = oppositionKey T claim := by
  rw [RecordRow.key, h]
  rfl

theorem MemoryInv.consistent {s : MemoryState} (h : MemoryInv T H s) : Consistent T H s where
  submitted := h.submitted
  unopposed := by
    rintro claim claim' ⟨r, hr, hact, hx, hclaim⟩ ⟨r', hr', hact', hx', hclaim'⟩
    rw [← h.keys _ hx, ← h.keys _ hx', ← RecordRow.key_of_claim hclaim,
      ← RecordRow.key_of_claim hclaim']
    exact h.unopposed r hr r' hr' hact hact'

/-- Every row that is read gives a record. -/
theorem exists_mem_of_mapM {α β : Type} {f : α → Except Exc β} {l : List α} {bs : List β}
    (h : l.mapM f = .ok bs) {a : α} (ha : a ∈ l) : ∃ b ∈ bs, f a = .ok b := by
  induction l generalizing bs with
  | nil => cases ha
  | cons c l ih =>
    rw [List.mapM_cons] at h
    obtain ⟨b, hb, h⟩ := except_bind_eq_ok.1 h
    obtain ⟨bs', hbs', h⟩ := except_bind_eq_ok.1 h
    cases h
    rcases List.mem_cons.1 ha with rfl | ha
    · exact ⟨b, by simp, hb⟩
    · obtain ⟨b', hmem, hb'⟩ := ih hbs' ha
      exact ⟨b', List.mem_cons_of_mem _ hmem, hb'⟩

/-- **A claim that the gate lets through opposes no active record as it is stored.** -/
theorem unopposed_of_gate {db : Db} {p : MemoryWrite} (h : gateReason T H db p = none)
    {r : RecordRow} (hr : r ∈ db.memoryRecords) (hact : r.Active) :
    ¬ Opposed (oppositionKey T p.claim) (r.key T) := by
  have hnil : contradictions T H db p = [] := ((gateReason_eq_none T).1 h).2.2
  rcases (contradictions_eq_nil T).1 hnil with hkey | ⟨records, hlist, hall⟩
  · rintro ⟨subject, p, q, ha, -⟩
    rw [hkey] at ha
    cases ha
  · obtain ⟨-, -, hlist⟩ := except_bind_eq_ok.1 hlist
    obtain ⟨-, -, hlist⟩ := except_bind_eq_ok.1 hlist
    have hlisted : r ∈ db.listed {} :=
      (List.mem_insertionSort _).2 (List.mem_filter.2 ⟨hr, decide_eq_true hact⟩)
    obtain ⟨m, hm, hrow⟩ := exists_mem_of_mapM hlist hlisted
    rw [RecordRow.key, ← claim_recordFromRow hrow]
    exact hall m hm

/-! ### The steps -/

theorem MemoryInv.check {s : MemoryState} (h : MemoryInv T H s) (writer : ℕ) (p : MemoryWrite) :
    MemoryInv T H (memoryStep T H s (.check writer p)) := by
  refine { h with checked := fun writer' c hc hreason r hr hact => ?_ }
  simp only [memoryStep] at hc
  by_cases hw : writer' = writer
  · rw [hw, Function.update_self] at hc
    cases hc
    exact unopposed_of_gate hreason hr hact
  · rw [Function.update_of_ne hw] at hc
    exact h.checked writer' c hc hreason r hr hact

/-- Rows that are there already, and the row of a claim that opposes none of the active ones. -/
theorem MemoryInv.puts {s : MemoryState} (h : MemoryInv T H s) {p : MemoryWrite} {id : String}
    {w' : World} (hkey : oppositionKey T (H.scrub p.claim) = oppositionKey T p.claim)
    (hun : ∀ r ∈ s.world.db.memoryRecords, r.Active →
      ¬ Opposed (oppositionKey T p.claim) (r.key T))
    (hputs : w'.db.memoryRecords = s.world.db.memoryRecords ∨ PutsRecord H p id s.world.db w'.db) :
    MemoryInv T H { s with
      world := w'
      submissions := s.submissions ++ [(.text (H.scrub id), p.claim)] } := by
  have hkeys : ∀ x ∈ s.submissions ++ [(SqlVal.text (H.scrub id), p.claim)],
      oppositionKey T (H.scrub x.2) = oppositionKey T x.2 := by
    intro x hx
    rcases List.mem_append.1 hx with hx | hx
    · exact h.keys x hx
    · rw [List.mem_singleton.1 hx]
      exact hkey
  have hold : ∀ r ∈ s.world.db.memoryRecords, ∃ claim,
      (r.id, claim) ∈ s.submissions ++ [(SqlVal.text (H.scrub id), p.claim)] ∧
        r.claim = .text (H.scrub claim) := by
    intro r hr
    obtain ⟨claim, hx, hclaim⟩ := h.submitted r hr
    exact ⟨claim, List.mem_append_left _ hx, hclaim⟩
  rcases hputs with hsame | ⟨row, hrow, hput⟩
  · exact ⟨by rw [hsame]; exact hold, hkeys, by rw [hsame]; exact h.unopposed, h.checked⟩
  · have hmem : ∀ r ∈ w'.db.memoryRecords, r ∈ s.world.db.memoryRecords ∨ r = row := by
      intro r hr
      rw [hput] at hr
      exact (Table.mem_replace.1 hr).imp_left And.left
    have hrowKey : row.key T = oppositionKey T p.claim := by
      rw [RecordRow.key_of_claim hrow.claim, hkey]
    refine ⟨fun r hr => ?_, hkeys, fun r hr r' hr' hact hact' => ?_, h.checked⟩
    · rcases hmem r hr with hr | rfl
      · exact hold r hr
      · refine ⟨p.claim, List.mem_append_right _ ?_, hrow.claim⟩
        rw [hrow.id_eq]
        exact List.mem_singleton_self _
    · rcases hmem r hr with hr | rfl <;> rcases hmem r' hr' with hr' | rfl
      · exact h.unopposed r hr r' hr' hact hact'
      · rw [hrowKey]
        exact fun hop => hun r hr hact hop.symm
      · rw [hrowKey]
        exact hun r' hr' hact'
      · exact not_opposed_self _

theorem MemoryInv.store {s : MemoryState} (h : MemoryInv T H s) {writer : ℕ}
    (hmeets : (MemoryCall.store writer).Meets T H s) :
    MemoryInv T H (memoryStep T H s (.store writer)) := by
  rw [memoryStep]
  cases hc : s.pending writer with
  | none => exact h
  | some c =>
    -- what the other writers have checked stays checked
    have hchecked : ∀ writer' c', Function.update s.pending writer none writer' = some c' →
        c'.reason = none → ∀ r ∈ c'.seen, r.Active →
          ¬ Opposed (oppositionKey T c'.proposal.claim) (r.key T) := by
      intro writer' c' hc'
      by_cases hw : writer' = writer
      · rw [hw, Function.update_self] at hc'
        cases hc'
      · rw [Function.update_of_ne hw] at hc'
        exact h.checked writer' c' hc'
    have hdb : (Act.final (storeProposal H writer c.proposal c.reason) s.world).db.memoryRecords =
        s.world.db.memoryRecords ∨ c.reason = none ∧ PutsRecord H c.proposal
          (nextMemoryId H s.world) s.world.db
          (Act.final (storeProposal H writer c.proposal c.reason) s.world).db :=
      Act.wp_final (I := fun w' : World => w'.db.memoryRecords = s.world.db.memoryRecords ∨
          c.reason = none ∧ PutsRecord H c.proposal (nextMemoryId H s.world) s.world.db w'.db)
        (Act.wp_mono (storeProposal_spec writer c.proposal c.reason s.world)
          (fun _ _ hw' => Or.inr hw'.2) fun _ _ hw' => hw'.2)
    by_cases hreason : c.reason = none
    · obtain ⟨hkey, hseen⟩ := hmeets c hc hreason
      have hputs := h.puts hkey (fun r hr hact =>
        h.checked writer c hc hreason r (hseen r hr hact) hact) (hdb.imp_right And.right)
      simp only [hreason, if_true] at hputs ⊢
      exact { hputs with checked := hchecked }
    · have hsame := hdb.resolve_right fun hd => hreason hd.1
      simp only [hreason, if_false]
      exact ⟨by rw [hsame]; exact h.submitted, h.keys, by rw [hsame]; exact h.unopposed, hchecked⟩

/-- Rows that are retired are not active any more, and nothing else changes. -/
theorem MemoryInv.retires {s : MemoryState} (h : MemoryInv T H s) {kind status : String}
    {archived : ℤ} (hkind : (kind, status, archived) ∈ retirements) {w' : World}
    (hw' : w'.db.memoryRecords = s.world.db.memoryRecords ∨
      Retires status archived s.world.db w'.db) : MemoryInv T H { s with world := w' } := by
  rcases hw' with hsame | ⟨p, updatedAt, hret⟩
  · exact ⟨by rw [hsame]; exact h.submitted, h.keys, by rw [hsame]; exact h.unopposed, h.checked⟩
  · have hinactive : ∀ r : RecordRow, ¬ (r.retire status archived updatedAt).Active := by
      rintro r ⟨-, hstatus, -⟩
      simp only [retirements, List.mem_cons, Prod.mk.injEq, List.not_mem_nil, or_false] at hkind
      rcases hkind with ⟨rfl, rfl, rfl⟩ | ⟨rfl, rfl, rfl⟩ <;>
        simp [RecordRow.retire] at hstatus
    have hmem : ∀ r ∈ w'.db.memoryRecords, ∃ r₀ ∈ s.world.db.memoryRecords,
        (r = r₀ ∨ r = r₀.retire status archived updatedAt) := by
      intro r hr
      rw [hret] at hr
      obtain ⟨r₀, hr₀, rfl⟩ := Table.mem_update.1 hr
      refine ⟨r₀, hr₀, ?_⟩
      split_ifs
      · exact Or.inr rfl
      · exact Or.inl rfl
    have hactive : ∀ r ∈ w'.db.memoryRecords, r.Active → r ∈ s.world.db.memoryRecords := by
      intro r hr hact
      obtain ⟨r₀, hr₀, rfl | rfl⟩ := hmem r hr
      · exact hr₀
      · exact absurd hact (hinactive r₀)
    refine ⟨fun r hr => ?_, h.keys, fun r hr r' hr' hact hact' => ?_, h.checked⟩
    · obtain ⟨r₀, hr₀, rfl | rfl⟩ := hmem r hr
      · exact h.submitted _ hr₀
      · exact h.submitted r₀ hr₀
    · exact h.unopposed r (hactive r hr hact) r' (hactive r' hr' hact') hact hact'

/-- `supersede` and `archive` retire rows, or leave the records alone. -/
theorem final_retire {kind status : String} {archived : ℤ}
    (hkind : (kind, status, archived) ∈ retirements) (i : ℕ) (id actor : String) (w : World) :
    (Act.final (retireRecord H kind i id actor none >>= fun _ => getMemory H id) w).db.memoryRecords
        = w.db.memoryRecords ∨
      Retires status archived w.db
        (Act.final (retireRecord H kind i id actor none >>= fun _ => getMemory H id) w).db := by
  refine Act.wp_final (I := fun w' : World => w'.db.memoryRecords = w.db.memoryRecords ∨
    Retires status archived w.db w'.db) ?_
  rw [wp_bind]
  refine Act.wp_mono (retireRecord_spec hkind i id actor none w) ?_ ?_
  · rintro _ w' ⟨-, hret⟩
    rw [getMemory, wp_readDb]
    split
    · exact Or.inr hret
    · exact Or.inr hret
  · rintro _ w' ⟨-, hdb⟩
    exact Or.inl (congrArg Db.memoryRecords hdb :)

theorem MemoryInv.step {s : MemoryState} (h : MemoryInv T H s) {c : MemoryCall}
    (hmeets : c.Meets T H s) : MemoryInv T H (memoryStep T H s c) := by
  cases c with
  | check writer p => exact h.check writer p
  | store writer => exact h.store hmeets
  | supersede i id actor =>
    have hkind : ("memory.superseded", "superseded", 0) ∈ retirements := by simp [retirements]
    exact h.retires hkind (final_retire hkind i id actor _)
  | archive i id actor =>
    have hkind : ("memory.archived", "archived", 1) ∈ retirements := by simp [retirements]
    exact h.retires hkind (final_retire hkind i id actor _)

/-- Before the first step. -/
def MemoryState.initial (w : World) : MemoryState := ⟨w, fun _ => none, []⟩

/-- **No two active records were submitted with opposite claims**, in every run from an empty memory
in which the claims that are stored keep their opposition keys and no record becomes active between
a check and its write. -/
theorem memory_consistent {w : World} (empty : w.db.memoryRecords = []) {calls : List MemoryCall}
    (hmeets : Run.Throughout (memoryStep T H) (MemoryCall.Meets T H) (.initial w) calls) :
    Run.Throughout (memoryStep T H) (fun s c => Consistent T H (memoryStep T H s c)) (.initial w)
      calls := by
  refine hmeets.mono (I := MemoryInv T H) (fun s c h hc => ?_) ?_
  · exact ⟨h.step hc, (h.step hc).consistent⟩
  · exact ⟨by simp [MemoryState.initial, empty], by simp [MemoryState.initial],
      by simp [MemoryState.initial, empty], by simp [MemoryState.initial]⟩

/-- A whole call of `write`, with nothing between its check and its store. -/
theorem meets_store_check {s : MemoryState} {writer : ℕ} {p : MemoryWrite}
    (hkey : oppositionKey T (H.scrub p.claim) = oppositionKey T p.claim) :
    (MemoryCall.store writer).Meets T H (memoryStep T H s (.check writer p)) := by
  intro c hc _
  simp only [memoryStep, Function.update_self, Option.some.injEq] at hc
  subst hc
  exact ⟨hkey, fun r hr _ => hr⟩

/-- The claim that something is enabled, or disabled. -/
def claimOf (claim : String) : MemoryWrite where
  kind := "fact"
  title := "Access"
  claim := claim
  sourceRefs := ["README.md"]
  evidenceGrade := "A"

/-- Two writes, the second of which takes the place of the first. -/
theorem access_consistent :
    Run.Throughout (memoryStep .ascii (Host.quick id))
      (fun s c => Consistent .ascii (Host.quick id) (memoryStep .ascii (Host.quick id) s c))
      (.initial emptyWorld)
      [.check 0 (claimOf "Guest access is enabled"), .store 0,
        .supersede 0 "mem_0000000000000000" "ann",
        .check 1 (claimOf "Guest access is disabled"), .store 1] :=
  memory_consistent rfl
    ⟨trivial, meets_store_check rfl, trivial, trivial, meets_store_check rfl, trivial⟩

/-- An address at the start of a text is masked. -/
def maskAnn (s : String) : String :=
  if startsWith s "ann@example.org" then "[PII:email]" ++ String.ofList (s.toList.drop 15) else s

/-- The checks, with the class that the redaction pass reports for the address. -/
def annTools : TextTools :=
  { TextTools.ascii with
    classesHit := fun s => if containsText s "ann@example.org" then ["email"] else [] }

/-- The claims of the two writes name a person. -/
def maskedRun : MemoryState :=
  [.check 0 (claimOf "ann@example.org access is enabled"), .store 0,
    .check 1 (claimOf "ann@example.org access is disabled"), .store 1].foldl
      (memoryStep annTools (Host.quick maskAnn)) (.initial emptyWorld)

/-- Both writers check before either of them writes. -/
def racingRun : MemoryState :=
  [.check 0 (claimOf "Guest access is enabled"), .check 1 (claimOf "Guest access is disabled"),
    .store 0, .store 1].foldl (memoryStep .ascii (Host.quick id)) (.initial emptyWorld)

theorem maskedRun_holds :
    maskedRun.Holds (Host.quick maskAnn) "ann@example.org access is enabled" ∧
      maskedRun.Holds (Host.quick maskAnn) "ann@example.org access is disabled" := by
  decide +kernel

theorem racingRun_holds :
    racingRun.Holds (Host.quick id) "Guest access is enabled" ∧
      racingRun.Holds (Host.quick id) "Guest access is disabled" := by
  decide +kernel

/-- **Opposite claims are both stored**: when the redaction pass masks the address that both of them
name, and when two writers check before either writes. -/
theorem opposite_records :
    ¬ Consistent annTools (Host.quick maskAnn) maskedRun ∧
      ¬ Consistent .ascii (Host.quick id) racingRun := by
  refine ⟨fun h => h.unopposed _ _ maskedRun_holds.1 maskedRun_holds.2 ?_,
    fun h => h.unopposed _ _ racingRun_holds.1 racingRun_holds.2 ?_⟩
  · exact ⟨"ann@example.org access is <state>", .positive, .negative, by decide +kernel,
      by decide +kernel, by decide⟩
  · exact ⟨"guest access is <state>", .positive, .negative, by decide +kernel, by decide +kernel,
      by decide⟩

end Shiroe
