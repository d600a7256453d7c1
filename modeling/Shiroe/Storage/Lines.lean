import Shiroe.Storage.Kept

/-!
# The lines that an append adds

An append adds one line to the log or none: it may raise before the line is written, and behind it.

* `append_lines`, `emit_lines` : the line, when the call returns and when it raises;
* `linesOf_emit`, `linesOf_emitWith` : what is read off the lines of other events stays as it is.
-/

namespace Shiroe

open Act

variable {H : Host}

/-- One line was added to the log, of the event `e`. -/
def LineAdded (H : Host) (e : EventEnvelope) (w w' : World) : Prop :=
  ∃ t env, IsEnvOf H e t env ∧ w'.dir.iterEvents.Perm (w.dir.iterEvents ++ [env])

theorem append_lines (i : ℕ) (e : EventEnvelope) (cut : Option Cut) (w : World) :
    Act.wp (append H i e cut)
      (fun env w' => (∃ t, IsEnvOf H e t env) ∧
        w'.dir.iterEvents.Perm (w.dir.iterEvents ++ [env]))
      (fun _ w' => w'.dir.iterEvents = w.dir.iterEvents ∨ LineAdded H e w w') w := by
  simp only [append, appendScrubbed, reach, modifyDir, onDb, wp_bind, wp_get, wp_ite, wp_throw,
    wp_pure, wp_set, wp_modify, wp_ofExcept, wp_zoom]
  refine ⟨fun _ => Or.inl trivial, fun _ => ⟨fun _ => Or.inl trivial, fun _ => ?_⟩⟩
  refine wp_mono (loadHead_spec i cut w) (fun head w₁ hl => ?_) fun _ w' h => Or.inl (by rw [h])
  have hold : ((e.scrubbed H).stamp w₁).dir.iterEvents = w.dir.iterEvents :=
    LogDir.iterEvents_congr hl.files
  have hnew : ∀ t, (((e.scrubbed H).stamp w₁).dir.appendEvent t
      ((e.scrubbed H).preparedAt H w₁ head)).iterEvents.Perm
        (w.dir.iterEvents ++ [(e.scrubbed H).preparedAt H w₁ head]) := fun t =>
    hold ▸ appendLine_perm _ _ _
  have hadded : ∀ {w' : World} {t : String}, w'.dir.iterEvents =
      (((e.scrubbed H).stamp w₁).dir.appendEvent t
        ((e.scrubbed H).preparedAt H w₁ head)).iterEvents → LineAdded H e w w' :=
    fun h => ⟨_, _, hl.isEnv e, h ▸ hnew _⟩
  cases validateEnvelope true ((e.scrubbed H).preparedAt H w₁ head) with
  | error x => exact Or.inl hold
  | ok u =>
    refine ⟨fun _ => Or.inl hold, fun _ => ⟨fun _ => Or.inr (hadded rfl), fun _ =>
      ⟨fun _ => Or.inr (hadded rfl), fun _ => ?_⟩⟩⟩
    unfold Act.wp
    split
    · exact ⟨⟨_, hl.isEnv e⟩, hnew _⟩
    · exact Or.inr (hadded rfl)

theorem keeps_dir_onDb {α : Type} (x : Act Exc Db α) (c : LogDir) :
    Keeps (fun w : World => w.dir = c) (onDb x) := by
  rintro w rfl
  rw [wp_onDb]
  unfold Act.wp
  split <;> rfl

theorem emit_lines (i : ℕ) (e : EventEnvelope) (w : World) :
    Act.wp (emit H i e) (fun _ w' => LineAdded H e w w')
      (fun _ w' => w'.dir.iterEvents = w.dir.iterEvents ∨ LineAdded H e w w') w := by
  rw [emit, wp_bind]
  refine wp_mono (append_lines i e none w) (fun env w₁ h => ?_) fun _ _ h => h
  obtain ⟨⟨t, henv⟩, hperm⟩ := h
  rw [wp_bind]
  exact wp_mono (keeps_dir_onDb _ w₁.dir w₁ rfl)
    (fun _ w' hw => (wp_pure _).2 ⟨t, env, henv, hw ▸ hperm⟩)
    fun _ w' hw => Or.inr ⟨t, env, henv, hw ▸ hperm⟩

theorem emitWith_lines (i : ℕ) (e : EventEnvelope) (write : String → Act Exc Db Unit) (w : World) :
    Act.wp (emitWith H i e write) (fun _ w' => LineAdded H e w w')
      (fun _ w' => w'.dir.iterEvents = w.dir.iterEvents ∨ LineAdded H e w w') w := by
  rw [emitWith, wp_bind]
  refine wp_mono (append_lines i e none w) (fun env w₁ h => ?_) fun _ _ h => h
  obtain ⟨⟨t, henv⟩, hperm⟩ := h
  rw [wp_bind, wp_now, wp_bind]
  refine wp_mono (keeps_dir_onDb _ w₁.dir _ rfl) (fun _ w₂ hw => ?_)
    fun _ w' hw => Or.inr ⟨t, env, henv, hw ▸ hperm⟩
  rw [wp_bind]
  exact wp_mono (keeps_dir_onDb _ w₁.dir w₂ hw)
    (fun _ w' hw => (wp_pure _).2 ⟨t, env, henv, hw ▸ hperm⟩)
    fun _ w' hw => Or.inr ⟨t, env, henv, hw ▸ hperm⟩

/-! ### What is read off the lines -/

variable {α : Type} (f : Json → Option α)

/-- What is read off the lines of the log. -/
def World.linesOf (w : World) : List α := w.dir.iterEvents.filterMap f

variable {f} {e : EventEnvelope} {w w' : World}

theorem LineAdded.linesOf (h : LineAdded H e w w') {o : Option α}
    (hf : ∀ t env, IsEnvOf H e t env → f env = o) :
    (w'.linesOf f).Perm (w.linesOf f ++ o.toList) := by
  obtain ⟨t, env, henv, hperm⟩ := h
  have hall := hperm.filterMap f
  rw [List.filterMap_append] at hall
  refine hall.trans (List.Perm.append_left _ ?_)
  rw [List.filterMap_cons, hf t env henv]
  cases o <;> rfl

/-- Events that nothing is read off leave it as it is. -/
theorem linesOf_emit (hf : ∀ t env, IsEnvOf H e t env → f env = none) (i : ℕ) (l : List α) :
    Keeps (fun w : World => (w.linesOf f).Perm l) (emit H i e) := by
  intro w hw
  have hadded : ∀ {w' : World}, LineAdded H e w w' → (w'.linesOf f).Perm l := fun h =>
    (by simpa using h.linesOf hf : List.Perm _ _).trans hw
  refine wp_mono (emit_lines i e w) (fun _ _ h => hadded h) fun _ w' h => ?_
  rcases h with h | h
  · rw [World.linesOf, h]
    exact hw
  · exact hadded h

theorem linesOf_emitWith (hf : ∀ t env, IsEnvOf H e t env → f env = none) (i : ℕ)
    (write : String → Act Exc Db Unit) (l : List α) :
    Keeps (fun w : World => (w.linesOf f).Perm l) (emitWith H i e write) := by
  intro w hw
  have hadded : ∀ {w' : World}, LineAdded H e w w' → (w'.linesOf f).Perm l := fun h =>
    (by simpa using h.linesOf hf : List.Perm _ _).trans hw
  refine wp_mono (emitWith_lines i e write w) (fun _ _ h => hadded h) fun _ w' h => ?_
  rcases h with h | h
  · rw [World.linesOf, h]
    exact hw
  · exact hadded h

end Shiroe
