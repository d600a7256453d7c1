import Mathlib.Data.List.MinMax

/-!
# Tables as lists of rows

A table is the list of its rows in rowid order.  `Table.replace` is `INSERT OR REPLACE`,
`Table.update` is `UPDATE … WHERE …`; `Table.filter_replaceAll_eq_iff` says when rows that are put
in leave a part of the table alone; the row that `ORDER BY f DESC LIMIT 1` returns is
`List.argmax f`, the first row with the greatest value.
-/

namespace Shiroe

namespace Table

variable {ρ κ τ : Type*}

/-- `INSERT OR REPLACE`: a row under the key of the new one goes away and the new row comes last.
A row without a key (`none`, a NULL key column) conflicts with nothing. -/
def replace [DecidableEq κ] (key : ρ → Option κ) (r : ρ) (t : List ρ) : List ρ :=
  t.filter (fun r' => key r' = none || key r' ≠ key r) ++ [r]

/-- `UPDATE … SET f WHERE p`. -/
def update (p : ρ → Bool) (f : ρ → ρ) (t : List ρ) : List ρ :=
  t.map fun r => if p r then f r else r

variable {key : ρ → Option κ} {r r' : ρ} {t : List ρ} {p : ρ → Bool} {f : ρ → ρ}

theorem mem_replace [DecidableEq κ] :
    r' ∈ replace key r t ↔ (r' ∈ t ∧ (key r' = none ∨ key r' ≠ key r)) ∨ r' = r := by
  simp [replace]

/-- A row that is replaced leaves its id in the table: the new row has it. -/
theorem mem_map_replace [DecidableEq κ] {id : ρ → τ}
    (hkey : ∀ r r', key r ≠ none → key r = key r' → id r = id r') {v : τ} (hv : v ∈ t.map id) :
    v ∈ (replace key r t).map id := by
  obtain ⟨r', hr', rfl⟩ := List.mem_map.1 hv
  by_cases h : key r' = none ∨ key r' ≠ key r
  · exact List.mem_map_of_mem (mem_replace.2 (Or.inl ⟨hr', h⟩))
  · rw [not_or, not_not] at h
    rw [hkey r' r h.1 h.2]
    exact List.mem_map_of_mem (mem_replace.2 (Or.inr rfl))

theorem mem_map_replace_self [DecidableEq κ] {id : ρ → τ} :
    id r ∈ (replace key r t).map id :=
  List.mem_map_of_mem (mem_replace.2 (Or.inr rfl))

theorem mem_update : r' ∈ update p f t ↔ ∃ r ∈ t, (if p r then f r else r) = r' :=
  List.mem_map

/-- What an update leaves alone in each row it leaves alone in the table. -/
theorem map_update {g : ρ → τ} (h : ∀ r, g (f r) = g r) : (update p f t).map g = t.map g := by
  rw [update, List.map_map]
  refine List.map_congr_left fun r _ => ?_
  by_cases hp : p r <;> simp [hp, h]

/-- Of two updates of the same rows the second counts. -/
theorem update_update {f' : ρ → ρ} (hp : ∀ r, p (f r) = p r) (hf : ∀ r, f' (f r) = f' r) :
    update p f' (update p f t) = update p f' t := by
  rw [update, update, update, List.map_map]
  refine List.map_congr_left fun r _ => ?_
  by_cases h : p r <;> simp [h, hp, hf]

/-- A row found after an update is the row found before, updated. -/
theorem find?_update {q : ρ → Bool} (hq : ∀ r, q (f r) = q r) :
    (update p f t).find? q = (t.find? q).map fun r => if p r then f r else r := by
  rw [update, List.find?_map]
  congr 2
  funext r
  by_cases h : p r <;> simp [h, hq]

/-- A row that is looked up by another key is found as before. -/
theorem find?_replace_of_ne [DecidableEq κ] {q : ρ → Bool} (hr : q r = false)
    (hq : ∀ r', q r' = true → key r' = none ∨ key r' ≠ key r) :
    (replace key r t).find? q = t.find? q := by
  have hkeep : ∀ r', (decide (key r' = none) || decide (key r' ≠ key r)) = true ∧ q r' = true ↔
      q r' = true := by
    intro r'
    simpa using fun h => hq r' h
  rw [replace, List.find?_append, List.find?_filter, List.find?_singleton, hr]
  simp only [hkeep, Bool.decide_eq_true, Bool.false_eq_true, if_false, Option.or_none]

/-- The row that replaces is found under its key. -/
theorem find?_replace_self [DecidableEq κ] {q : ρ → Bool} (hr : q r = true)
    (hq : ∀ r', q r' = true → key r' = key r ∧ key r' ≠ none) :
    (replace key r t).find? q = some r := by
  have hnone : (t.filter fun r' => key r' = none || key r' ≠ key r).find? q = none := by
    rw [List.find?_eq_none]
    rintro r' hr' hqr
    obtain ⟨hkey, hnone⟩ := hq r' hqr
    simp [hkey, hkey ▸ hnone] at hr'
  rw [replace, List.find?_append, hnone, List.find?_singleton, hr]
  rfl

/-- Rows put in one after the other. -/
def replaceAll [DecidableEq κ] (key : ρ → Option κ) (rows t : List ρ) : List ρ :=
  rows.foldl (fun t r => replace key r t) t

theorem mem_of_mem_replaceAll [DecidableEq κ] {rows : List ρ} (h : r ∈ replaceAll key rows t) :
    r ∈ t ∨ r ∈ rows := by
  induction rows generalizing t with
  | nil => exact Or.inl h
  | cons r' rows ih =>
    rcases ih (t := replace key r' t) h with h | h
    · refine (mem_replace.1 h).imp And.left ?_
      rintro rfl
      exact List.mem_cons_self
    · exact Or.inr (List.mem_cons_of_mem _ h)

/-- The row is not replaced by any of the others. -/
def keptBy [DecidableEq κ] (key : ρ → Option κ) (rows : List ρ) (r' : ρ) : Bool :=
  rows.all fun r => key r' = none || key r' ≠ key r

/-- What is left of a part of the table that none of the new rows belongs to. -/
theorem filter_replaceAll [DecidableEq κ] {rows : List ρ} (hp : ∀ r ∈ rows, p r = false) :
    (replaceAll key rows t).filter p = (t.filter p).filter (keptBy key rows) := by
  induction rows generalizing t with
  | nil => simp [replaceAll, keptBy]
  | cons r rows ih =>
    change (replaceAll key rows (replace key r t)).filter p = _
    rw [ih fun r' hr' => hp r' (List.mem_cons_of_mem _ hr'), replace, List.filter_append,
      List.filter_singleton, hp r List.mem_cons_self]
    simp only [Bool.cond_false, List.append_nil, List.filter_filter]
    refine List.filter_congr fun r' _ => ?_
    simp only [keptBy, List.all_cons]
    cases p r' <;> cases rows.all fun r => decide (key r' = none) || decide (key r' ≠ key r) <;>
      simp

/-- That part stays as it is exactly if none of its rows is replaced. -/
theorem filter_replaceAll_eq_iff [DecidableEq κ] {rows : List ρ} (hp : ∀ r ∈ rows, p r = false) :
    (replaceAll key rows t).filter p = t.filter p ↔
      ∀ r' ∈ t, p r' = true → ∀ r ∈ rows, key r' = none ∨ key r' ≠ key r := by
  rw [filter_replaceAll hp, List.filter_eq_self]
  simp only [List.mem_filter, and_imp, keptBy, List.all_eq_true, Bool.or_eq_true, decide_eq_true_eq]

/-- A row that is looked up by another key than the new ones is found as before. -/
theorem find?_replaceAll_of_ne [DecidableEq κ] {q : ρ → Bool} {rows : List ρ}
    (hr : ∀ r ∈ rows, q r = false)
    (hq : ∀ r ∈ rows, ∀ r', q r' = true → key r' = none ∨ key r' ≠ key r) :
    (replaceAll key rows t).find? q = t.find? q := by
  induction rows generalizing t with
  | nil => rfl
  | cons r rows ih =>
    change (replaceAll key rows (replace key r t)).find? q = _
    rw [ih (fun r' h => hr r' (List.mem_cons_of_mem _ h))
      (fun r' h => hq r' (List.mem_cons_of_mem _ h)),
      find?_replace_of_ne (hr r List.mem_cons_self) (hq r List.mem_cons_self)]

/-- Rows with keys of their own all stay, behind the rows that they leave. -/
theorem replaceAll_eq_append [DecidableEq κ] {rows : List ρ} (h : (rows.map key).Nodup) :
    replaceAll key rows t = t.filter (keptBy key rows) ++ rows := by
  induction rows generalizing t with
  | nil => exact ((List.append_nil _).trans (List.filter_eq_self.2 fun _ _ => rfl)).symm
  | cons r rows ih =>
    obtain ⟨hr, hnodup⟩ := List.nodup_cons.1 h
    have hkept : keptBy key rows r = true := by
      refine List.all_eq_true.2 fun r' hr' => ?_
      have hne : key r ≠ key r' := fun heq => hr (heq ▸ List.mem_map_of_mem hr')
      simp [hne]
    change replaceAll key rows (replace key r t) = _
    rw [ih hnodup, replace, List.filter_append, List.filter_singleton, hkept, List.filter_filter,
      cond_true, List.append_assoc, List.singleton_append]
    refine congrArg (· ++ r :: rows) (List.filter_congr fun r' _ => ?_)
    rw [keptBy, keptBy, List.all_cons, Bool.and_comm]

/-- A part of the table all of whose keys the new rows take becomes the new rows. -/
theorem filter_replaceAll_of_covered [DecidableEq κ] {rows : List ρ} (h : (rows.map key).Nodup)
    (hp : ∀ r ∈ rows, p r = true)
    (hcover : ∀ r' ∈ t, p r' = true → key r' ≠ none ∧ key r' ∈ rows.map key) :
    (replaceAll key rows t).filter p = rows := by
  have hnil : (t.filter (keptBy key rows)).filter p = [] := by
    rw [List.filter_filter, List.filter_eq_nil_iff]
    intro r' hr' hkept
    rw [Bool.and_eq_true] at hkept
    obtain ⟨hnone, hmem⟩ := hcover r' hr' hkept.1
    obtain ⟨r, hr, hkey⟩ := List.mem_map.1 hmem
    have hkept := List.all_eq_true.1 hkept.2 r hr
    simp [hkey, hnone] at hkept
  rw [replaceAll_eq_append h, List.filter_append, hnil, List.nil_append, List.filter_eq_self.2 hp]

end Table

end Shiroe
