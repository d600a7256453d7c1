import Shiroe.Storage.Commitment
import Shiroe.Storage.Lines
import Shiroe.Storage.Order

/-!
# Tables that follow their log

The tables of a project are the fold of its events in the order in which these were appended, or the
fold of the log raises and no replay ends.  Every write through the log keeps this, whatever the
clock does and whatever the writes raise, and a replay of such a log changes nothing.

* `Recorded.emit`, `Recorded.emitWith`, `Recorded.append` : writing an event;
* `Recorded.replayInto`, `Recorded.rebuild_eq` : a replay, and `shiroe state rebuild`.
-/

namespace Shiroe

open Act

variable (H : Host)

/-- The tables are the fold of the log, unless the fold raises. -/
def FoldsTo (log : List Json) (db : Db) : Prop :=
  foldLog H log {} = .ok () db ∨ ∃ x db', foldLog H log {} = .error x db'

/-- The fold of an event leads to the same tables with a statement in front of it. -/
def FoldsOver (H : Host) (write : Act Exc Db Unit) (env : Json) (db : Db) : Prop :=
  ∃ d db₁ db₂, write db = .ok () db₁ ∧ applyEvent H env db₁ = .ok d db₂ ∧
    applyEvent H env db = .ok d db₂

/-- Unless two of its events collide, the log was sealed event by event, and the tables are what
the events lead to. -/
def Recorded (w : World) : Prop :=
  NoCollision H w.dir.iterEvents → ∃ log, SealedBy H w log ∧ FoldsTo H log w.db

variable {H}

theorem Recorded.empty {w : World} (hdir : w.dir = {}) (hdb : w.db = {}) : Recorded H w := fun _ =>
  ⟨[], ⟨isChain_nil, by rw [hdir]; rfl, fun h => absurd rfl h, by rw [hdir]; rfl, by simp⟩,
    Or.inl (by rw [hdb]; rfl)⟩

theorem Recorded.congr {w w' : World} (h : Recorded H w) (hdir : w'.dir = w.dir)
    (hdb : w'.db = w.db) : Recorded H w' := by
  intro hcol
  rw [hdir] at hcol
  obtain ⟨log, hs, hf⟩ := h hcol
  exact ⟨log, hs.congr hdir, hdb ▸ hf⟩

namespace FoldsTo

variable {log : List Json} {env : Json} {db db' : Db}

/-- The fold of the next event leads to its tables. -/
theorem concat {d : Option Domain} (h : FoldsTo H log db) (hf : foldEvent H env db = .ok d db') :
    FoldsTo H (log ++ [env]) db' := by
  cases hfold : foldLog H (log ++ [env]) {} with
  | error x db₁ => exact Or.inr ⟨x, db₁, hfold⟩
  | ok u db₁ =>
    obtain ⟨db₀, d₀, h₀, hd₀⟩ := foldLog_concat.1 hfold
    refine Or.inl (hfold.trans ?_)
    rcases h with h | ⟨x, db₂, h⟩
    · rw [h₀] at h
      cases h
      rw [hf] at hd₀
      cases hd₀
      rfl
    · rw [h₀] at h
      cases h

/-- Behind an event that the tables reject the log leads nowhere. -/
theorem stuck {x : Exc} {db₁ : Db} (h : FoldsTo H log db) (hf : foldEvent H env db = .error x db₁)
    (db' : Db) : FoldsTo H (log ++ [env]) db' := by
  cases hfold : foldLog H (log ++ [env]) {} with
  | error x db₁ => exact Or.inr ⟨x, db₁, hfold⟩
  | ok u db₂ =>
    obtain ⟨db₀, d₀, h₀, hd₀⟩ := foldLog_concat.1 hfold
    rcases h with h | ⟨y, db₃, h⟩
    · rw [h₀] at h
      cases h
      rw [hf] at hd₀
      cases hd₀
    · rw [h₀] at h
      cases h

end FoldsTo

/-- The target of an event that has been mirrored can be encoded. -/
theorem encodes_target_of_mirrorRow {e : EventEnvelope} {t : String} {env : Json} {db db' : Db}
    (h : IsEnvOf H e t env) (hm : mirrorRow H env db = .ok () db') :
    ∀ s ∈ e.target, H.encodes s = true := by
  intro s hs
  by_contra henc
  have htarget : bindText H (env.get "target") = .error (.unicodeEncode s) := by
    rw [h.target, hs, Json.ofOption, bindText, bindParam, if_neg henc]
    rfl
  have hraises : Act.wp (mirrorRow H env) (fun _ _ => False) (fun _ _ => True) db := by
    unfold mirrorRow
    simp only [wp_bind, wp_ofExcept, htarget]
    repeat' split
    all_goals trivial
  exact (wp_of_ok hm).1 hraises

/-- Lines are only added to the log. -/
theorem LineAdded.noCollision {e : EventEnvelope} {w w' : World} (h : LineAdded H e w w')
    (hcol : NoCollision H w'.dir.iterEvents) : NoCollision H w.dir.iterEvents := by
  obtain ⟨t, env, -, hperm⟩ := h
  exact hcol.subset fun a ha => hperm.mem_iff.2 (List.mem_append_left _ ha)

namespace Recorded

/-- An append seals its event at the end of the log; one that raises leaves a recorded project. -/
theorem append_step {w : World} (h : Recorded H w) (i : ℕ) (e : EventEnvelope) :
    Act.wp (Shiroe.append H i e none)
      (fun env w' => IsEnvOf H e (e.timestampAt H w) env ∧ mirrorRow H env w.db = .ok () w'.db ∧
        (NoCollision H w'.dir.iterEvents → ∃ log, SealedBy H w' (log ++ [env]) ∧
          FoldsTo H log w.db))
      (fun _ w' => Recorded H w') w := by
  have hold : ∀ {w' : World}, w'.dir.iterEvents = w.dir.iterEvents ∨ LineAdded H e w w' →
      NoCollision H w'.dir.iterEvents → NoCollision H w.dir.iterEvents := by
    rintro w' (hsame | hadd) hcol
    · rwa [hsame] at hcol
    · exact hadd.noCollision hcol
  refine wp_mono (wp_and (wp_and (append_spec i e none w) (append_frame i e none w))
    (append_lines i e none w)) ?_ ?_
  · rintro env w' ⟨⟨⟨w₁, head, ha⟩, -⟩, ⟨t, henv⟩, hperm⟩
    refine ⟨ha.isEnv, ha.mirrored, fun hcol => ?_⟩
    have hcol' := hold (Or.inr ⟨t, env, henv, hperm⟩) hcol
    obtain ⟨log, hs, hf⟩ := h hcol'
    have hv := ha.valid
    have hdir : w'.dir = sealedDir H e w₁ head := by rw [ha.frame]
    rw [ha.env_eq] at hv ⊢
    exact ⟨log, hs.sealedDir (hcol'.subset hs.files.symm.subset) ha.loaded hv hdir, hf⟩
  · rintro x w' ⟨⟨hh, -, -, hdb⟩, hlines⟩ hcol
    obtain ⟨log, hs, hf⟩ := h (hold hlines hcol)
    have hcol' : NoCollision H log := (hold hlines hcol).subset hs.files.symm.subset
    rcases hh with ⟨hdir, -⟩ | ⟨w₁, head, hl, hdir, -⟩ | ⟨-, -, -, -, -, -, hcut⟩ |
      ⟨w₁, head, hl, hv, hdir, -, hcut⟩
    · exact h.congr hdir hdb hcol
    · exact ⟨log, (hs.loaded hcol' hl).congr hdir, hdb ▸ hf⟩
    · cases hcut
    · -- the event is in the log and could not be mirrored, so no replay gets past it
      obtain ⟨y, db, hm⟩ := hcut.resolve_left (by simp)
      exact ⟨_, hs.sealedDir hcol' hl hv hdir, hf.stuck (Act.bind_of_error hm) w'.db⟩

/-- **Writing an event keeps a project recorded**, also when it raises. -/
theorem emit (i : ℕ) (e : EventEnvelope) : Keeps (Recorded H) (Shiroe.emit H i e) := by
  intro w h
  rw [Shiroe.emit, wp_bind]
  refine wp_mono (h.append_step i e) ?_ fun _ _ h => h
  rintro env w₁ ⟨-, hm, hlog⟩
  rw [onDb, wp_bind, wp_zoom]
  unfold Act.wp
  cases hf : applyEvent H env w₁.db with
  | ok d db =>
    intro hcol
    obtain ⟨log, hs, hfold⟩ := hlog hcol
    exact ⟨log ++ [env], hs.congr rfl, hfold.concat ((Act.bind_of_ok hm).trans hf)⟩
  | error x db =>
    intro hcol
    obtain ⟨log, hs, hfold⟩ := hlog hcol
    exact ⟨log ++ [env], hs.congr rfl, hfold.stuck ((Act.bind_of_ok hm).trans hf) db⟩

/-- **What a statement writes between the append and the fold, the fold writes over.** -/
theorem emitWith (i : ℕ) {e : EventEnvelope} (he : e.Open) (hobj : e.payload.isObj = true)
    {write : String → Act Exc Db Unit}
    (hover : ∀ env db n, ReadsAs H e env → (∀ s ∈ e.target, H.encodes s = true) →
      FoldsOver H (write (H.clock n)) env db) :
    Keeps (Recorded H) (Shiroe.emitWith H i e write) := by
  intro w h
  rw [Shiroe.emitWith, wp_bind]
  refine wp_mono (h.append_step i e) ?_ fun _ _ h => h
  rintro env w₁ ⟨henv, hm, hlog⟩
  have hreads : ReadsAs H e env :=
    ⟨henv.payloadOf hobj, henv.eventType, henv.target, _, henv.timestamp, he.encodes_timestampAt w⟩
  obtain ⟨d, db₁, db₂, hwrite, hf, hfold⟩ :=
    hover env w₁.db w₁.tick hreads (encodes_target_of_mirrorRow henv hm)
  simp only [onDb, wp_bind, wp_zoom, wp_now]
  rw [wp_of_ok hwrite, wp_of_ok hf]
  refine (wp_pure _).2 fun hcol => ?_
  obtain ⟨log, hs, hfolds⟩ := hlog hcol
  exact ⟨log ++ [env], hs.congr rfl, hfolds.concat ((Act.bind_of_ok hm).trans hfold)⟩

/-- An event that the reducers pass over is appended and not folded. -/
theorem append (i : ℕ) {e : EventEnvelope}
    (hidle : ∀ t env db, IsEnvOf H e t env → ∃ d, applyEvent H env db = .ok d db) :
    Keeps (Recorded H) (Shiroe.append H i e none) := by
  intro w h
  refine wp_mono (h.append_step i e) ?_ fun _ _ h => h
  rintro env w₁ ⟨henv, hm, hlog⟩ hcol
  obtain ⟨log, hs, hfold⟩ := hlog hcol
  obtain ⟨d, hd⟩ := hidle _ env w₁.db henv
  exact ⟨_, hs, hfold.concat ((Act.bind_of_ok hm).trans hd)⟩

/-- **A replay that ends, ends with the tables that the writes had left**, whatever tables it starts
from. -/
theorem replayInto {w : World} (h : Recorded H w) (hcol : NoCollision H w.dir.iterEvents)
    {db₀ db : Db} {report : ReplayReport} (hr : replayInto H w.dir db₀ = .ok report db) :
    db = w.db := by
  obtain ⟨log, hs, hf⟩ := h hcol
  obtain ⟨u, db₁, hv, hr⟩ := Act.bind_eq_ok.1 hr
  have hchain : verifyChain H w.dir = .ok () := by
    cases hc : verifyChain H w.dir with
    | ok u => rfl
    | error x =>
      rw [hc] at hv
      cases hv
  -- a log that passes the check is read in the order in which it was written
  have hlog : w.dir.iterEvents = log :=
    (verifyChain_eq_ok.1 hchain).1.eq_of_perm hs.chain hs.files
      (fun a ha => hs.sorted a (hs.files.mem_iff.1 ha)) hcol
  obtain ⟨u, db₂, hm, hr⟩ := Act.bind_eq_ok.1 hr
  cases hm
  have hfold := foldLog_of_replay hr
  rw [hlog] at hfold
  rcases hf with hf | ⟨x, db', hf⟩
  · have hboth := hf.symm.trans hfold
    cases hboth
    rfl
  · have hboth := hf.symm.trans hfold
    cases hboth

/-- A rebuild changes nothing: its replay ends with the same tables, or it raises and is rolled
back. -/
theorem rebuild_eq {w : World} (h : Recorded H w) (hcol : NoCollision H w.dir.iterEvents) :
    rebuild H w = w := by
  unfold Shiroe.rebuild
  split
  · rename_i report db hr
    rw [h.replayInto hcol hr]
  · rfl

end Recorded

end Shiroe
