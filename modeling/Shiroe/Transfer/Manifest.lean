import Shiroe.Lib.JsonTokens
import Shiroe.Transfer.Extraction

/-!
# The manifest of a bundle

The manifest is the canonical text of its body.  Reading that text gives the entries again, in
their order and with the same digest, as long as their paths are normalised ones.

* `withoutBlanks_dumps` : the canonical text has no blanks to leave out;
* `posixParts_posix` : a path of names is read back from its text;
* `manifestFromBytes_manifestBody` : the manifest is read as it was written.
-/

namespace Shiroe

open Act

/-! ### Texts -/

theorem fromUTF8_utf8 (text : List Char) :
    String.fromUTF8? ⟨(utf8 text).toArray⟩ = some (String.ofList text) := by
  have hbytes : (⟨(utf8 text).toArray⟩ : ByteArray) = (String.ofList text).toByteArray := by
    rw [String.toByteArray_ofList, List.utf8Encode]
    ext1
    rw [List.data_toByteArray]
    rfl
  rw [hbytes, String.fromUTF8?, dif_pos (String.ofList text).isValidUTF8]
  rfl

section

variable (ascii : Bool)

/-- A character outside strings that is kept. -/
theorem withoutBlanks_token {c : Char} (hblank : Json.isBlank c = false) (hquote : c ≠ '"')
    (s : List Char) : withoutBlanks false (c :: s) = c :: withoutBlanks false s := by
  rw [withoutBlanks, hblank]
  simp [hquote]

/-- A run of such characters. -/
theorem withoutBlanks_tokens {x : List Char}
    (hx : ∀ c ∈ x, Json.isBlank c = false ∧ c ≠ '"') (s : List Char) :
    withoutBlanks false (x ++ s) = x ++ withoutBlanks false s := by
  induction x with
  | nil => rfl
  | cons c x ih =>
    have hc := hx c List.mem_cons_self
    rw [List.cons_append, withoutBlanks_token hc.1 hc.2,
      ih fun d hd => hx d (List.mem_cons_of_mem _ hd), List.cons_append]

/-- A character inside a string is kept. -/
theorem withoutBlanks_plain {c : Char} (hback : c ≠ '\\') (hquote : c ≠ '"') (s : List Char) :
    withoutBlanks true (c :: s) = c :: withoutBlanks true s := by
  conv_lhs => unfold withoutBlanks
  split <;> simp_all

theorem withoutBlanks_hex4 (n : ℕ) (s : List Char) :
    withoutBlanks true ('\\' :: 'u' :: (Json.hex4 n ++ s)) =
      '\\' :: 'u' :: (Json.hex4 n ++ withoutBlanks true s) := by
  have hdigit : ∀ d < 16, d.digitChar ≠ '\\' ∧ d.digitChar ≠ '"' := by decide
  have hx : ∀ m, (m % 16).digitChar ≠ '\\' ∧ (m % 16).digitChar ≠ '"' := fun m =>
    hdigit _ (Nat.mod_lt _ (by decide))
  rw [withoutBlanks]
  simp only [Json.hex4, List.cons_append, List.nil_append]
  rw [withoutBlanks_plain (hx _).1 (hx _).2, withoutBlanks_plain (hx _).1 (hx _).2,
    withoutBlanks_plain (hx _).1 (hx _).2, withoutBlanks_plain (hx _).1 (hx _).2]

/-- What is written for a character of a string is kept. -/
theorem withoutBlanks_escChar (c : Char) (s : List Char) :
    withoutBlanks true (Json.escChar ascii c ++ s) =
      Json.escChar ascii c ++ withoutBlanks true s := by
  unfold Json.escChar
  split_ifs with h₁ h₂ h₃ h₄ h₅ h₆ h₇ h₈
  iterate 7 rfl
  · unfold Json.escUnicode
    split_ifs
    · exact withoutBlanks_hex4 _ s
    · simp only [List.append_assoc, List.cons_append]
      rw [withoutBlanks_hex4, withoutBlanks_hex4]
  · exact withoutBlanks_plain h₂ h₁ s

theorem withoutBlanks_dumpsStr (t : String) (s : List Char) :
    withoutBlanks false (Json.dumpsStr ascii t ++ s) =
      Json.dumpsStr ascii t ++ withoutBlanks false s := by
  have hbody : ∀ l : List Char, withoutBlanks true (l.flatMap (Json.escChar ascii) ++ '"' :: s) =
      l.flatMap (Json.escChar ascii) ++ '"' :: withoutBlanks false s := by
    intro l
    induction l with
    | nil => rfl
    | cons c l ih =>
      rw [List.flatMap_cons, List.append_assoc, withoutBlanks_escChar, ih, List.append_assoc]
  simp only [Json.dumpsStr, List.cons_append, List.append_assoc, List.nil_append]
  rw [← hbody]
  rfl

/-- Neither a blank nor a quote is a character of a number. -/
theorem token_of_numChar {c : Char} (h : Json.numChar c = true) :
    Json.isBlank c = false ∧ c ≠ '"' := by
  have hnot : ∀ d ∈ [' ', '\t', '\n', '\r', '"'], Json.numChar d = false := by decide
  refine ⟨?_, fun hc => ?_⟩
  · by_contra hblank
    have hmem : c ∈ [' ', '\t', '\n', '\r'] := by
      simpa only [Json.isBlank, List.contains_eq_mem, decide_eq_true_eq, Bool.not_eq_false]
        using hblank
    have hfalse := hnot c (List.mem_append_left ['"'] hmem)
    rw [h] at hfalse
    cases hfalse
  · rw [hc] at h
    cases h

mutual
theorem withoutBlanks_value : ∀ (j : Json) (s : List Char),
    withoutBlanks false (j.dumps ascii ++ s) = j.dumps ascii ++ withoutBlanks false s
  | .null, s => rfl
  | .bool true, s => rfl
  | .bool false, s => rfl
  | .int n, s => withoutBlanks_tokens (fun c hc => token_of_numChar
      (Json.numChar_of_floatChar (Json.floatChar_of_mem_dumpsInt hc))) s
  | .float x, s => withoutBlanks_tokens (fun c hc => token_of_numChar
      (Json.numChar_of_mem_repr hc)) s
  | .str t, s => withoutBlanks_dumpsStr ascii t s
  | .arr l, s => by
    rw [Json.dumps, List.cons_append, withoutBlanks_token (by decide) (by decide),
      withoutBlanks_items l s, List.cons_append]
  | .obj d, s => by
    rw [Json.dumps, List.cons_append, withoutBlanks_token (by decide) (by decide),
      withoutBlanks_fields d s, List.cons_append]
theorem withoutBlanks_items : ∀ (l : List Json) (s : List Char),
    withoutBlanks false (Json.dumpsItems ascii l ++ s) =
      Json.dumpsItems ascii l ++ withoutBlanks false s
  | [], s => rfl
  | [a], s => by
    rw [Json.dumpsItems, List.append_assoc, withoutBlanks_value a, List.append_assoc]
    rfl
  | a :: b :: l, s => by
    rw [Json.dumpsItems, List.append_assoc, withoutBlanks_value a, List.cons_append,
      withoutBlanks_token (by decide) (by decide), withoutBlanks_items (b :: l) s,
      List.append_assoc, List.cons_append]
theorem withoutBlanks_fields : ∀ (d : List (String × Json)) (s : List Char),
    withoutBlanks false (Json.dumpsFields ascii d ++ s) =
      Json.dumpsFields ascii d ++ withoutBlanks false s
  | [], s => rfl
  | [(k, a)], s => by
    simp only [Json.dumpsFields, List.append_assoc, List.cons_append, List.nil_append]
    rw [withoutBlanks_dumpsStr, withoutBlanks_token (by decide) (by decide), withoutBlanks_value a]
    rfl
  | (k, a) :: b :: d, s => by
    simp only [Json.dumpsFields, List.append_assoc, List.cons_append]
    rw [withoutBlanks_dumpsStr, withoutBlanks_token (by decide) (by decide), withoutBlanks_value a,
      withoutBlanks_token (by decide) (by decide), withoutBlanks_fields (b :: d) s]
end

/-- **The canonical text has no blanks between its tokens.** -/
theorem withoutBlanks_dumps (j : Json) : withoutBlanks false (j.dumps ascii) = j.dumps ascii := by
  have h := withoutBlanks_value ascii j []
  rwa [List.append_nil, withoutBlanks, List.append_nil] at h

end

/-! ### Paths -/

/-- A name of a file or a folder. -/
structure IsName (n : String) : Prop where
  ne_empty : n ≠ ""
  ne_dot : n ≠ "."
  ne_up : n ≠ ".."
  noSlash : '/' ∉ n.toList

theorem posix_toList (path : TreePath) :
    (posix path).toList = List.intercalate ['/'] (path.map String.toList) :=
  String.toList_intercalate

/-- A path of names is read back from its text. -/
theorem posixParts_posix {path : TreePath} (hnil : path ≠ []) (h : ∀ n ∈ path, IsName n) :
    posixParts (posix path) = path := by
  rw [posixParts, posix_toList, List.splitOn_intercalate]
  · have hsame : (path.map String.toList).map String.ofList = path := by
      rw [List.map_map, Function.comp_def]
      simp
    rw [hsame, List.filter_eq_self]
    exact fun n hn => by simpa using ⟨(h n hn).ne_empty, (h n hn).ne_dot⟩
  · intro l hl
    obtain ⟨n, hn, rfl⟩ := List.mem_map.1 hl
    exact (h n hn).noSlash
  · simpa using hnil

/-- The text of a path of names begins with a name. -/
theorem head?_posix {path : TreePath} (hnil : path ≠ []) (h : ∀ n ∈ path, IsName n) :
    ∃ c s, (posix path).toList = c :: s ∧ c ≠ '/' := by
  obtain ⟨n, path, rfl⟩ := List.exists_cons_of_ne_nil hnil
  have hn := h n List.mem_cons_self
  obtain ⟨c, s, hc⟩ := List.exists_cons_of_ne_nil fun hempty : n.toList = [] =>
    hn.ne_empty (String.toList_eq_nil_iff.1 hempty)
  have hslash : c ≠ '/' := fun heq => hn.noSlash (by rw [hc, heq]; exact List.mem_cons_self)
  rw [posix_toList, List.map_cons]
  cases path with
  | nil => exact ⟨c, s, by simp [hc], hslash⟩
  | cons m path => exact ⟨c, _, by rw [List.map_cons, List.intercalate_cons_cons, hc]; rfl, hslash⟩

theorem validateRelativePath_posix {path : TreePath} (hnil : path ≠ [])
    (h : ∀ n ∈ path, IsName n) : validateRelativePath (posix path) = .ok path := by
  obtain ⟨c, s, hhead, hslash⟩ := head?_posix hnil h
  have hempty : posix path ≠ "" := fun heq => by rw [heq] at hhead; cases hhead
  have habsolute : isAbsolute (posix path) = false := by simp [isAbsolute, hhead, hslash]
  have hup : ".." ∉ path := fun hmem => (h _ hmem).ne_up rfl
  rw [validateRelativePath, posixParts_posix hnil h]
  simp [hempty, habsolute, hup, hnil]

theorem posix_injective {p q : TreePath} (hp : p ≠ []) (hpn : ∀ n ∈ p, IsName n) (hq : q ≠ [])
    (hqn : ∀ n ∈ q, IsName n) (h : posix p = posix q) : p = q := by
  rw [← posixParts_posix hp hpn, h, posixParts_posix hq hqn]

/-! ### The manifest -/

variable {H : Host}

/-- The body of a manifest. -/
def manifestBody (files : List FileEntry) : Json :=
  .mkObj [("schema", .str artifactBundleSchema), ("files", .arr (files.map FileEntry.toJson))]

/-- The manifest for the entries. -/
def manifestOf (H : Host) (files : List FileEntry) : ArtifactBundleManifest where
  schema := artifactBundleSchema
  files := files
  manifestDigest := digestBytes H (utf8 ((manifestBody files).dumps false))

/-- An entry as it is made for a file. -/
structure FileEntry.Written (e : FileEntry) : Prop where
  ne_nil : e.path ≠ []
  named : ∀ n ∈ e.path, IsName n
  sha256 : startsWith e.sha256 "sha256:" = true ∧ e.sha256.toList.length = 71
  size : ∃ n : ℕ, e.size = .int n ∧ n < 2 ^ 63

theorem digestBytes_form (data : List UInt8) :
    startsWith (digestBytes H data) "sha256:" = true ∧
      (digestBytes H data).toList.length = 71 := by
  constructor
  · rw [startsWith, List.isPrefixOf_iff_prefix, digestBytes, String.toList_append]
    exact List.prefix_append _ _
  · rw [digestBytes, String.toList_append, List.length_append, length_hex, H.digest_length]
    rfl

theorem FileEntry.Written.normalize {e : FileEntry} (h : e.Written) {seen : List FileEntry}
    (hnew : e.path ∉ seen.map (·.path)) : normalizeEntry seen e.toJson = .ok (e :: seen) := by
  have hpath : ((e.toJson.get "path").orElse (.str "")).pyText = posix e.path := by
    obtain ⟨c, s, hhead, -⟩ := head?_posix h.ne_nil h.named
    have hne : posix e.path ≠ "" := fun heq => by rw [heq] at hhead; cases hhead
    simp [FileEntry.toJson, Json.orElse, Json.truthy, hne, Json.pyText]
  have hsha : ((e.toJson.get "sha256").orElse (.str "")).pyText = e.sha256 := by
    have hne : e.sha256 ≠ "" := fun heq => by
      have hlen := h.sha256.2
      rw [heq] at hlen
      cases hlen
    simp [FileEntry.toJson, List.lookup, Json.orElse, Json.truthy, hne, Json.pyText]
  have hsize : e.toJson.get "size" = e.size := by
    simp [FileEntry.toJson, List.lookup]
  have hint : isSize e.size = true := by
    obtain ⟨n, hn, -⟩ := h.size
    rw [hn]
    simp [isSize]
  have hobj : e.toJson.isObj = true := rfl
  rw [normalizeEntry, hobj, if_neg (by decide)]
  refine except_bind_eq_ok.2 ⟨e.path, ?_, ?_⟩
  · rw [hpath]
    exact validateRelativePath_posix h.ne_nil h.named
  · dsimp only
    rw [hsha, hsize, if_neg hnew, if_neg (by simp [h.sha256]), if_neg (by simp [hint])]

theorem plain_manifestBody {files : List FileEntry} (h : ∀ e ∈ files, e.Written) :
    (manifestBody files).Plain := by
  refine Json.Plain.mkObj ⟨trivial, Json.plainItems_iff.2 fun a ha => ?_, trivial⟩
  obtain ⟨e, he, rfl⟩ := List.mem_map.1 ha
  obtain ⟨n, hn, hlt⟩ := (h e he).size
  refine Json.Plain.mkObj ⟨trivial, trivial, ?_, trivial⟩
  rw [hn]
  exact (Nat.toDigits_length 10 n 19 (by decide) (hlt.trans (by decide))).trans (by decide)

theorem wf_manifestBody {files : List FileEntry} (h : ∀ e ∈ files, e.Written) :
    (manifestBody files).WF := by
  refine Json.WF.mkObj ⟨trivial, Json.wfItems_iff.2 fun a ha => ?_, trivial⟩
  obtain ⟨e, he, rfl⟩ := List.mem_map.1 ha
  obtain ⟨n, hn, -⟩ := (h e he).size
  refine Json.WF.mkObj ⟨trivial, trivial, ?_, trivial⟩
  rw [hn]
  trivial

/-- The entries are normalised to themselves, the last one first. -/
theorem normalize_all {files seen : List FileEntry} (h : ∀ e ∈ files, e.Written)
    (hnodup : ((seen.reverse ++ files).map (·.path)).Nodup) :
    (files.map FileEntry.toJson).foldlM normalizeEntry seen = .ok (files.reverse ++ seen) := by
  induction files generalizing seen with
  | nil => rfl
  | cons e files ih =>
    have hnew : e.path ∉ seen.map (·.path) := by
      intro hmem
      rw [List.map_append, List.nodup_append] at hnodup
      exact hnodup.2.2 e.path (by simpa using hmem) e.path (by simp) rfl
    rw [List.map_cons, List.foldlM_cons]
    refine except_bind_eq_ok.2 ⟨_, (h e List.mem_cons_self).normalize hnew, ?_⟩
    rw [ih (fun f hf => h f (List.mem_cons_of_mem _ hf)) (by simpa using hnodup)]
    simp

/-- The text of a manifest is parsed to its body. -/
theorem parseManifest_manifestBody {files : List FileEntry} (h : ∀ e ∈ files, e.Written) :
    parseManifest (utf8 ((manifestBody files).dumps false)) = .ok (manifestBody files) := by
  have hscan : Json.scan ((manifestBody files).dumps false) = some .object :=
    Json.scan_dumps false (plain_manifestBody h)
  unfold parseManifest
  dsimp only
  rw [fromUTF8_utf8]
  dsimp only
  rw [String.toList_ofList, hscan]
  dsimp only
  rw [withoutBlanks_dumps, Json.loads_dumps, (wf_manifestBody h).reread]

/-- **A manifest is read as it was written.** -/
theorem manifestFromBytes_manifestBody {files : List FileEntry} (h : ∀ e ∈ files, e.Written)
    (hnodup : (files.map (·.path)).Nodup)
    (henc : H.encodes (String.ofList ((manifestBody files).dumps false)) = true) :
    manifestFromBytes H (utf8 ((manifestBody files).dumps false)) = .ok (manifestOf H files) := by
  have hschema : (manifestBody files).get "schema" = .str artifactBundleSchema := by
    simp [manifestBody]
  have hfiles : (manifestBody files).get "files" = .arr (files.map FileEntry.toJson) := by
    simp [manifestBody, List.lookup]
  refine except_bind_eq_ok.2 ⟨_, parseManifest_manifestBody h, ?_⟩
  dsimp only
  rw [hschema, hfiles, if_neg (not_not_intro rfl)]
  dsimp only
  refine except_bind_eq_ok.2 ⟨_, @normalize_all files [] h (by simpa using hnodup), ?_⟩
  rw [List.append_nil, List.reverse_reverse]
  change (if H.encodes (String.ofList ((manifestBody files).dumps false)) = false then _ else _) = _
  rw [henc, if_neg (by decide)]
  rfl

end Shiroe
