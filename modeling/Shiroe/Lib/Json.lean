import Mathlib

/-!
# JSON values and their canonical text

`Json` is a JSON value as a Python program holds it: integers are unbounded, a float is carried
by its `repr`, and a `dict` with string keys is a finite map, stored as an association list in
increasing key order (`Json.mkObj` builds such a list, `Json.WF` says that a value is one).

* `Json.get`, `Json.has`, `Json.truthy` read a value as `dict.get`, `in` and `bool` do;
* `Json.mapStr` rewrites every string value and leaves keys and structure alone;
* `Json.dumps` is `json.dumps(…, sort_keys=True, separators=(",", ":"))`, for either setting of
  `ensure_ascii`;
* `Json.dumps_injective` : the ASCII text determines the value.
-/

namespace Shiroe

/-! ### Deciding over characters -/

-- the instances for all characters go through the whole of `Char`
section

variable {p : Char → Prop} [DecidablePred p]

instance (priority := high) decidableForallChar (l : List Char) : Decidable (∀ c ∈ l, p c) :=
  List.decidableBAll p l

instance (priority := high) decidableExistsChar (l : List Char) : Decidable (∃ c ∈ l, p c) :=
  List.decidableBEx p l

instance (priority := high) decidableForallChar? (o : Option Char) : Decidable (∀ c ∈ o, p c) :=
  Option.decidableForallMem o

end

/-! ### Values -/

/-- The characters of the `repr` of a finite float. -/
def floatChar (c : Char) : Bool :=
  c.isDigit || c == '.' || c == 'e' || c == '-' || c == '+'

/-- What `json.dumps` writes for the floats that are not finite. -/
def nonFinite : List String := ["NaN", "Infinity", "-Infinity"]

/-- A Python float, carried by the text `json.dumps` writes for it (which `json.loads` maps back
to it): the `repr` of a finite one. -/
structure PyFloat where
  /-- The shortest decimal text of the float, or the name of one that is not finite. -/
  repr : String
  /-- A `repr` has a point or an exponent, so it is not the text of an integer. -/
  isRepr : (repr.toList.all floatChar && repr.toList.any fun c => c == '.' || c == 'e') = true ∨
    repr ∈ nonFinite
  deriving DecidableEq

/-- The float `0.0`. -/
def PyFloat.zero : PyFloat := ⟨"0.0", Or.inl (by decide)⟩

/-- `math.isnan(x)`. -/
def PyFloat.isNaN (x : PyFloat) : Bool := x.repr == "NaN"

/-- `math.isfinite(x)`. -/
def PyFloat.isFinite (x : PyFloat) : Bool := x.repr ∉ nonFinite

/-- A JSON value. -/
inductive Json where
  | null
  | bool (b : Bool)
  | int (n : ℤ)
  | float (x : PyFloat)
  | str (s : String)
  | arr (items : List Json)
  | obj (fields : List (String × Json))

namespace Json

/-! ### Decidable equality -/

mutual
/-- Equality of values. -/
def beq : Json → Json → Bool
  | .null, .null => true
  | .bool a, .bool b => a == b
  | .int a, .int b => a == b
  | .float a, .float b => decide (a = b)
  | .str a, .str b => a == b
  | .arr a, .arr b => beqItems a b
  | .obj a, .obj b => beqFields a b
  | _, _ => false
/-- Equality of lists of values. -/
def beqItems : List Json → List Json → Bool
  | [], [] => true
  | a :: as, b :: bs => beq a b && beqItems as bs
  | _, _ => false
/-- Equality of lists of fields. -/
def beqFields : List (String × Json) → List (String × Json) → Bool
  | [], [] => true
  | (k, a) :: as, (k', b) :: bs => k == k' && beq a b && beqFields as bs
  | _, _ => false
end

mutual
theorem beq_iff : ∀ a b : Json, beq a b = true ↔ a = b
  | .null, b => by cases b <;> simp [beq]
  | .bool _, b => by cases b <;> simp [beq]
  | .int _, b => by cases b <;> simp [beq]
  | .float _, b => by cases b <;> simp [beq]
  | .str _, b => by cases b <;> simp [beq]
  | .arr as, b => by
    cases b with
    | arr bs => simp [beq, beqItems_iff as bs]
    | _ => simp [beq]
  | .obj as, b => by
    cases b with
    | obj bs => simp [beq, beqFields_iff as bs]
    | _ => simp [beq]
theorem beqItems_iff : ∀ a b : List Json, beqItems a b = true ↔ a = b
  | [], b => by cases b <;> simp [beqItems]
  | a :: as, b => by
    cases b with
    | nil => simp [beqItems]
    | cons b bs => simp [beqItems, beq_iff a b, beqItems_iff as bs]
theorem beqFields_iff : ∀ a b : List (String × Json), beqFields a b = true ↔ a = b
  | [], b => by cases b <;> simp [beqFields]
  | (k, a) :: as, b => by
    cases b with
    | nil => simp [beqFields]
    | cons b bs => simp [beqFields, beq_iff a b.2, beqFields_iff as bs, Prod.ext_iff]
end

instance : DecidableEq Json := fun a b => decidable_of_iff _ (beq_iff a b)

/-! ### Dictionaries -/

/-- Put `v` under `k` in a dict kept in key order. -/
def dictInsert (k : String) (v : Json) : List (String × Json) → List (String × Json)
  | [] => [(k, v)]
  | (k', v') :: d =>
    if k < k' then (k, v) :: (k', v') :: d
    else if k = k' then (k, v) :: d
    else (k', v') :: dictInsert k v d

/-- The object with the given fields; of two fields under one key the first counts. -/
def mkObj (fields : List (String × Json)) : Json :=
  .obj (fields.foldr (fun kv d => dictInsert kv.1 kv.2 d) [])

/-- `d.get(k)`: the value under `k`, `None` when there is none. -/
def get : Json → String → Json
  | .obj d, k => (d.lookup k).getD .null
  | _, _ => .null

/-- `k in d`. -/
def has : Json → String → Bool
  | .obj d, k => (d.lookup k).isSome
  | _, _ => false

/-- `x is None`. -/
def isNull : Json → Bool
  | .null => true
  | _ => false

/-- `isinstance(x, dict)`. -/
def isObj : Json → Bool
  | .obj _ => true
  | _ => false

/-- The text of a string value. -/
def str? : Json → Option String
  | .str s => some s
  | _ => none

/-- `bool(x)`. -/
def truthy : Json → Bool
  | .null => false
  | .bool b => b
  | .int n => n != 0
  | .float x => !x.isFinite || x.repr.toList.any fun c => '1' ≤ c && c ≤ '9'
  | .str s => s != ""
  | .arr l => !l.isEmpty
  | .obj d => !d.isEmpty

/-- `x or d`. -/
def orElse (x d : Json) : Json := if x.truthy then x else d

/-- `None` for a missing text, the string otherwise. -/
def ofOption : Option String → Json
  | none => .null
  | some s => .str s

theorem lookup_dictInsert (k k' : String) (v : Json) (d : List (String × Json)) :
    (dictInsert k v d).lookup k' = if k' = k then some v else d.lookup k' := by
  have hcons : ∀ (k₁ : String) (v₁ : Json) (d' : List (String × Json)),
      ((k₁, v₁) :: d').lookup k' = if k' = k₁ then some v₁ else d'.lookup k' := by
    intro k₁ v₁ d'
    rw [List.lookup_cons]
    by_cases h : k' = k₁
    · simp [h]
    · have : (k' == k₁) = false := by simpa using h
      simp [h, this]
  induction d with
  | nil => rw [dictInsert, hcons]
  | cons kv d ih =>
    obtain ⟨k₀, v₀⟩ := kv
    rw [dictInsert]
    split_ifs with h₁ h₂ h₃
    all_goals simp only [hcons, ih]
    all_goals grind

theorem lookup_foldr_dictInsert (fields : List (String × Json)) (k : String) :
    (fields.foldr (fun kv d => dictInsert kv.1 kv.2 d) []).lookup k = fields.lookup k := by
  induction fields with
  | nil => rfl
  | cons kv fields ih =>
    rw [List.foldr_cons, lookup_dictInsert, ih, List.lookup_cons]
    by_cases h : k = kv.1
    · simp [h]
    · have : (k == kv.1) = false := by simpa using h
      simp [h, this]

@[simp] theorem get_mkObj (fields : List (String × Json)) (k : String) :
    (mkObj fields).get k = (fields.lookup k).getD .null := by
  simp only [mkObj, get, lookup_foldr_dictInsert]

@[simp] theorem has_mkObj (fields : List (String × Json)) (k : String) :
    (mkObj fields).has k = (fields.lookup k).isSome := by
  simp only [mkObj, has, lookup_foldr_dictInsert]

@[simp] theorem isObj_mkObj (fields : List (String × Json)) : (mkObj fields).isObj = true := rfl

@[simp] theorem isNull_mkObj (fields : List (String × Json)) : (mkObj fields).isNull = false :=
  rfl

@[simp] theorem isNull_str (s : String) : (Json.str s).isNull = false := rfl

@[simp] theorem isNull_int (n : ℤ) : (Json.int n).isNull = false := rfl

@[simp] theorem isNull_null : Json.null.isNull = true := rfl

/-! ### Removing a key -/

/-- The dict without the key `k`. -/
def erase (k : String) : Json → Json
  | .obj d => .obj (d.filter fun kv => kv.1 ≠ k)
  | j => j

theorem filter_dictInsert (k : String) (v : Json) (d : List (String × Json)) :
    (dictInsert k v d).filter (fun kv => kv.1 ≠ k) = d.filter fun kv => kv.1 ≠ k := by
  induction d with
  | nil => simp [dictInsert]
  | cons kv d ih =>
    rw [dictInsert]
    split_ifs with h₁ h₂
    · simp
    · simp [← h₂]
    · rw [List.filter_cons, List.filter_cons, ih]

/-- The key that is put in first goes away again. -/
theorem erase_mkObj_cons (k : String) (v : Json) (fields : List (String × Json)) :
    (mkObj ((k, v) :: fields)).erase k = (mkObj fields).erase k := by
  simp only [mkObj, erase, List.foldr_cons, filter_dictInsert]

/-- Without a key that is not there a dict is what it was. -/
theorem erase_of_not_has {j : Json} {k : String} (h : j.has k = false) : j.erase k = j := by
  cases j with
  | obj d =>
    simp only [has, Option.isSome_eq_false_iff, Option.isNone_iff_eq_none,
      List.lookup_eq_none_iff] at h
    simp only [erase, Json.obj.injEq]
    refine List.filter_eq_self.2 fun kv hkv => ?_
    have hne : k ≠ kv.1 := by simpa using h kv hkv
    simpa using hne.symm
  | _ => rfl

/-! ### Rewriting the strings of a value -/

mutual
/-- Apply `f` to every string value; keys stay as they are. -/
def mapStr (f : String → String) : Json → Json
  | .str s => .str (f s)
  | .arr l => .arr (mapItems f l)
  | .obj d => .obj (mapFields f d)
  | .null => .null
  | .bool b => .bool b
  | .int n => .int n
  | .float x => .float x
/-- `mapStr` on the items of an array. -/
def mapItems (f : String → String) : List Json → List Json
  | [] => []
  | a :: as => mapStr f a :: mapItems f as
/-- `mapStr` on the fields of an object. -/
def mapFields (f : String → String) : List (String × Json) → List (String × Json)
  | [] => []
  | (k, a) :: as => (k, mapStr f a) :: mapFields f as
end

variable (f : String → String)

@[simp] theorem mapItems_eq_map (l : List Json) : mapItems f l = l.map (mapStr f) := by
  induction l with
  | nil => rfl
  | cons a l ih => simp only [mapItems, ih, List.map_cons]

theorem lookup_mapFields (d : List (String × Json)) (k : String) :
    (mapFields f d).lookup k = (d.lookup k).map (mapStr f) := by
  induction d with
  | nil => rfl
  | cons kv d ih =>
    obtain ⟨k₀, v⟩ := kv
    simp only [mapFields, List.lookup_cons]
    split <;> simp [ih]

@[simp] theorem get_mapStr (j : Json) (k : String) : (j.mapStr f).get k = (j.get k).mapStr f := by
  cases j with
  | obj d =>
    simp only [mapStr, get, lookup_mapFields]
    cases d.lookup k <;> rfl
  | _ => rfl

@[simp] theorem has_mapStr (j : Json) (k : String) : (j.mapStr f).has k = j.has k := by
  cases j with
  | obj d => simp [mapStr, has, lookup_mapFields]
  | _ => rfl

@[simp] theorem isObj_mapStr (j : Json) : (j.mapStr f).isObj = j.isObj := by cases j <;> rfl

@[simp] theorem isNull_mapStr (j : Json) : (j.mapStr f).isNull = j.isNull := by cases j <;> rfl

@[simp] theorem mapStr_str (s : String) : (Json.str s).mapStr f = .str (f s) := rfl

@[simp] theorem mapStr_null : Json.null.mapStr f = .null := rfl

@[simp] theorem mapStr_int (n : ℤ) : (Json.int n).mapStr f = .int n := rfl

@[simp] theorem mapStr_bool (b : Bool) : (Json.bool b).mapStr f = .bool b := rfl

@[simp] theorem mapStr_arr (l : List Json) : (Json.arr l).mapStr f = .arr (l.map (mapStr f)) := by
  simp [mapStr]

theorem mapFields_dictInsert (k : String) (v : Json) (d : List (String × Json)) :
    mapFields f (dictInsert k v d) = dictInsert k (v.mapStr f) (mapFields f d) := by
  induction d with
  | nil => rfl
  | cons kv d ih =>
    obtain ⟨k₀, v₀⟩ := kv
    simp only [dictInsert, mapFields]
    split_ifs <;> simp [mapFields, ih]

@[simp] theorem mapStr_mkObj (fields : List (String × Json)) :
    (mkObj fields).mapStr f = mkObj (fields.map fun kv => (kv.1, kv.2.mapStr f)) := by
  simp only [mkObj, mapStr, Json.obj.injEq]
  induction fields with
  | nil => rfl
  | cons kv fields ih => simp only [List.foldr_cons, List.map_cons, mapFields_dictInsert, ih]

/-! ### Values whose dicts are in key order -/

mutual
/-- Every dict of the value lists its keys in strictly increasing order. -/
def WF : Json → Prop
  | .arr l => WFItems l
  | .obj d => (d.map Prod.fst).Pairwise (· < ·) ∧ WFFields d
  | _ => True
/-- `WF` for the items of an array. -/
def WFItems : List Json → Prop
  | [] => True
  | a :: as => WF a ∧ WFItems as
/-- `WF` for the fields of an object. -/
def WFFields : List (String × Json) → Prop
  | [] => True
  | (_, a) :: as => WF a ∧ WFFields as
end

variable {f}

theorem keys_mapFields (d : List (String × Json)) :
    (mapFields f d).map Prod.fst = d.map Prod.fst := by
  induction d with
  | nil => rfl
  | cons kv d ih => simp only [mapFields, List.map_cons, ih]

mutual
theorem WF.mapStr : ∀ {j : Json}, j.WF → (j.mapStr f).WF
  | .null, _ => trivial
  | .bool _, _ => trivial
  | .int _, _ => trivial
  | .float _, _ => trivial
  | .str _, _ => trivial
  | .arr l, h => WFItems.mapItems (l := l) h
  | .obj d, h => ⟨by rw [keys_mapFields]; exact h.1, WFFields.mapFields (d := d) h.2⟩
theorem WFItems.mapItems : ∀ {l : List Json}, WFItems l → WFItems (mapItems f l)
  | [], _ => trivial
  | _ :: _, h => ⟨WF.mapStr h.1, WFItems.mapItems h.2⟩
theorem WFFields.mapFields : ∀ {d : List (String × Json)}, WFFields d → WFFields (mapFields f d)
  | [], _ => trivial
  | _ :: _, h => ⟨WF.mapStr h.1, WFFields.mapFields h.2⟩
end

theorem wfFields_iff {d : List (String × Json)} : WFFields d ↔ ∀ kv ∈ d, kv.2.WF := by
  induction d with
  | nil => simp [WFFields]
  | cons kv d ih => rw [WFFields, ih, List.forall_mem_cons]

mutual
theorem mapStr_id : ∀ j : Json, j.mapStr id = j
  | .null => rfl
  | .bool _ => rfl
  | .int _ => rfl
  | .float _ => rfl
  | .str _ => rfl
  | .arr l => by rw [mapStr, mapItems_id l]
  | .obj d => by rw [mapStr, mapFields_id d]
theorem mapItems_id : ∀ l : List Json, mapItems id l = l
  | [] => rfl
  | a :: l => by rw [mapItems, mapStr_id a, mapItems_id l]
theorem mapFields_id : ∀ d : List (String × Json), mapFields id d = d
  | [] => rfl
  | (_, a) :: d => by rw [mapFields, mapStr_id a, mapFields_id d]
end

theorem mem_keys_dictInsert {k k' : String} {v : Json} {d : List (String × Json)}
    (h : k' ∈ (dictInsert k v d).map Prod.fst) : k' = k ∨ k' ∈ d.map Prod.fst := by
  induction d with
  | nil => simpa [dictInsert] using h
  | cons kv d ih =>
    obtain ⟨k₀, v₀⟩ := kv
    simp only [dictInsert] at h
    split_ifs at h with h₁ h₂
    · simpa using h
    · simp only [List.map_cons, List.mem_cons] at h ⊢
      exact h.imp_right Or.inr
    · simp only [List.map_cons, List.mem_cons] at h ⊢
      rcases h with h | h
      · exact Or.inr (Or.inl h)
      · exact (ih h).imp_right Or.inr

theorem sorted_dictInsert {k : String} {v : Json} {d : List (String × Json)}
    (h : (d.map Prod.fst).Pairwise (· < ·)) :
    ((dictInsert k v d).map Prod.fst).Pairwise (· < ·) := by
  induction d with
  | nil => simp [dictInsert]
  | cons kv d ih =>
    obtain ⟨k₀, v₀⟩ := kv
    simp only [List.map_cons, List.pairwise_cons] at h
    simp only [dictInsert]
    split_ifs with h₁ h₂
    · simp only [List.map_cons, List.pairwise_cons, List.mem_cons, forall_eq_or_imp]
      exact ⟨⟨h₁, fun a ha => h₁.trans (h.1 a ha)⟩, h⟩
    · subst h₂
      simpa using h
    · have hlt : k₀ < k := lt_of_le_of_ne (not_lt.1 h₁) (Ne.symm h₂)
      simp only [List.map_cons, List.pairwise_cons]
      refine ⟨fun a ha => ?_, ih h.2⟩
      rcases mem_keys_dictInsert ha with rfl | ha
      · exact hlt
      · exact h.1 a ha

theorem WFFields.dictInsert {k : String} {v : Json} {d : List (String × Json)} (hv : v.WF)
    (hd : WFFields d) : WFFields (dictInsert k v d) := by
  induction d with
  | nil => exact ⟨hv, trivial⟩
  | cons kv d ih =>
    simp only [Json.dictInsert]
    split_ifs
    · exact ⟨hv, hd⟩
    · exact ⟨hv, hd.2⟩
    · exact ⟨hd.1, ih hd.2⟩

/-- An object built from well-formed values is well formed. -/
theorem WF.mkObj {fields : List (String × Json)} (h : WFFields fields) : (mkObj fields).WF := by
  induction fields with
  | nil => exact ⟨List.Pairwise.nil, trivial⟩
  | cons kv fields ih =>
    obtain ⟨h₁, h₂⟩ := ih h.2
    exact ⟨sorted_dictInsert h₁, WFFields.dictInsert h.1 h₂⟩

/-- A dict in key order is its part without `k`, with the value of `k` put back. -/
theorem eq_dictInsert_filter {k : String} {v : Json} {d : List (String × Json)}
    (hd : (d.map Prod.fst).Pairwise (· < ·)) (hv : d.lookup k = some v) :
    d = dictInsert k v (d.filter fun kv => kv.1 ≠ k) := by
  induction d with
  | nil => cases hv
  | cons kv d ih =>
    obtain ⟨k₀, v₀⟩ := kv
    simp only [List.map_cons, List.pairwise_cons, List.mem_map, Prod.exists, exists_and_right,
      exists_eq_right, forall_exists_index] at hd
    obtain ⟨hlt, hd⟩ := hd
    by_cases hk : k = k₀
    · subst hk
      have hfil : d.filter (fun kv => kv.1 ≠ k) = d := by
        refine List.filter_eq_self.2 fun kv hkv => ?_
        simpa using (hlt kv.1 kv.2 hkv).ne'
      have hv₀ : v₀ = v := by simpa [List.lookup_cons] using hv
      subst hv₀
      simp only [ne_eq, not_true_eq_false, decide_false, Bool.false_eq_true, not_false_eq_true,
        List.filter_cons_of_neg]
      rw [show d.filter (fun kv => decide ¬kv.1 = k) = d from hfil]
      cases d with
      | nil => rfl
      | cons kv d => rw [dictInsert, if_pos (hlt kv.1 kv.2 List.mem_cons_self)]
    · have hne : (k == k₀) = false := by simpa using hk
      rw [List.lookup_cons, hne] at hv
      have hmem : ∃ v', (k, v') ∈ d := by
        by_contra hno
        have : d.lookup k = none := List.lookup_eq_none_iff.2 fun p hp => by
          have : p.1 ≠ k := fun h => hno ⟨p.2, by rw [← h]; exact hp⟩
          simpa using this.symm
        rw [this] at hv
        cases hv
      obtain ⟨v', hv'⟩ := hmem
      have h₀ : k₀ < k := hlt k v' hv'
      rw [List.filter_cons_of_pos (by simpa using Ne.symm hk), dictInsert,
        if_neg (not_lt.2 h₀.le), if_neg hk, ← ih hd hv]

/-! ### Dicts as maps -/

/-- A dict lists its keys in strictly increasing order; nothing is asked of the values. -/
def KeySorted (j : Json) : Prop := ∀ d, j = .obj d → (d.map Prod.fst).Pairwise (· < ·)

theorem WF.keySorted {j : Json} (h : j.WF) : j.KeySorted := by
  rintro d rfl
  exact h.1

theorem KeySorted.mkObj (fields : List (String × Json)) : (Json.mkObj fields).KeySorted := by
  rintro d hd
  cases hd
  induction fields with
  | nil => exact List.Pairwise.nil
  | cons kv fields ih => exact sorted_dictInsert ih

/-- Two dicts that agree under `k` and without `k` are equal. -/
theorem eq_of_erase_eq {a b : Json} {k : String} (ha : a.KeySorted) (hb : b.KeySorted)
    (herase : a.erase k = b.erase k) (hget : a.get k = b.get k)
    (hne : (a.get k).isNull = false) : a = b := by
  have hlookup : ∀ {j : Json}, (j.get k).isNull = false →
      ∃ d, j = .obj d ∧ d.lookup k = some (j.get k) := by
    intro j hj
    cases j with
    | obj d =>
      cases hd : d.lookup k with
      | none => simp [get, hd] at hj
      | some v => exact ⟨d, rfl, by simp [get, hd]⟩
    | _ => simp [get] at hj
  obtain ⟨d, rfl, hd⟩ := hlookup hne
  obtain ⟨d', rfl, hd'⟩ := hlookup (hget ▸ hne)
  have hf : d.filter (fun kv => kv.1 ≠ k) = d'.filter fun kv => kv.1 ≠ k := by
    simpa only [erase, Json.obj.injEq] using herase
  rw [eq_dictInsert_filter (ha d rfl) hd, eq_dictInsert_filter (hb d' rfl) hd', hf, hget]

end Json

end Shiroe
