import Mathlib.Data.Char
import Mathlib.Data.List.Lex
import Mathlib.Data.List.Sort
import Shiroe.Lib.Framing
import Shiroe.Outside

/-!
# Inspection of a capability source

`capabilities/inspection.py` up to the report: the files that the walk yields, in the order of
their paths, and the digest over their names and contents.

* `hasDigest_iff` : the digest is the hash of the framed names and contents of the files that
  the walk yields and that can be read (`Source.covered`);
* `sameDigest_iff` : two sources have one digest exactly when these files agree.
-/

namespace Shiroe

/-- `_TEXT_EXTENSIONS`. -/
def textExtensions : List String :=
  [".md", ".py", ".sh", ".js", ".ts", ".json", ".yaml", ".yml", ".toml"]

/-- `Path.suffix`: the name from its last dot on, if the dot neither starts nor ends it. -/
def suffix (path : String) : String :=
  -- the name and its part after the last dot, from back to front
  let name := path.toList.reverse.takeWhile (· ≠ '/')
  let extension := name.takeWhile (· ≠ '.')
  if extension ≠ [] ∧ extension.length + 1 < name.length then
    String.ofList ('.' :: extension.reverse)
  else ""

/-- The parts of a path, by which paths are compared. -/
def pathParts (path : String) : List (List Char) := path.toList.splitOn '/'

/-- `_iter_text_files`. -/
def Source.iterTextFiles (s : Source) : List SourceFile :=
  if s.isFile then s.files
  else s.files.filter fun f => f.listed && textExtensions.contains (suffix f.rel)

/-- `p <= q` for two paths below one source. -/
def SourceFile.Le (f g : SourceFile) : Prop := pathParts f.rel ≤ pathParts g.rel

instance : DecidableRel SourceFile.Le := fun f g =>
  inferInstanceAs (Decidable (pathParts f.rel ≤ pathParts g.rel))

variable (H : Host)

/-- One pass of the loop of `_digest_directory`: what the hash has been fed, and the bytes read. -/
def feed (fed : List UInt8 × ℕ) (f : SourceFile) : Except Exc (List UInt8 × ℕ) :=
  if f.readable = false then .ok fed
  else if H.encodes f.rel then
    .ok (fed.1 ++ (utf8 f.rel.toList ++ [0]) ++ H.digest f.data, fed.2 + f.data.length)
  else .error (.unicodeEncode f.rel)

/-- `_digest_directory`: the digest, the number of files and the bytes read. -/
def digestDirectory (s : Source) : Except Exc (String × ℕ × ℕ) := do
  let files := s.iterTextFiles.insertionSort SourceFile.Le
  let (fed, totalBytes) ← files.foldlM (feed H) ([], 0)
  return ("sha256:" ++ hex (H.digest fed), files.length, totalBytes)

/-- What `inspect_source` reports: of the `TrustReport`, what the registry keeps. -/
structure TrustReport where
  digest : String
  fileCount : ℕ
  totalBytes : ℕ
  license : Option String
  deriving DecidableEq

/-- `inspect_source`. -/
def inspectSource (s : Source) : Except Exc TrustReport := do
  let (digest, fileCount, totalBytes) ← digestDirectory H s
  let license ← if s.isFile then .ok none else s.license
  return { digest, fileCount, totalBytes, license }

/-! ### What the digest covers -/

/-- A path with the contents of its file. -/
abbrev Content := String × List UInt8

/-- The path and the contents of a file. -/
def SourceFile.content (f : SourceFile) : Content := (f.rel, f.data)

/-- The paths of the regular files of a source, with their contents. -/
def Source.contents (s : Source) : List Content := s.files.map SourceFile.content

/-- The files that the walk yields and that can be read, in the order of their paths. -/
def Source.covered (s : Source) : List Content :=
  ((s.iterTextFiles.insertionSort SourceFile.Le).filter (·.readable)).map SourceFile.content

/-- The names of the covered files can be encoded. -/
def Source.Encodable (s : Source) : Prop := ∀ x ∈ s.covered, H.encodes x.1 = true

/-- What the hash is fed for a file: its name and the hash of its contents. -/
def tagged (x : Content) : List UInt8 × List UInt8 := (utf8 x.1.toList, H.digest x.2)

/-- What the hash is fed for a source. -/
def Source.fed (s : Source) : List UInt8 := Framing.encode 0 (s.covered.map (tagged H))

variable {H}

theorem foldlM_feed {files : List SourceFile} (fed : List UInt8 × ℕ)
    (h : ∀ f ∈ files, f.readable = true → H.encodes f.rel = true) :
    ∃ n, files.foldlM (feed H) fed = .ok
      (fed.1 ++ Framing.encode 0
        (((files.filter (·.readable)).map SourceFile.content).map (tagged H)), n) := by
  induction files generalizing fed with
  | nil => exact ⟨fed.2, by simp [pure, Except.pure]⟩
  | cons f files ih =>
    have htail : ∀ f ∈ files, f.readable = true → H.encodes f.rel = true :=
      fun g hg => h g (List.mem_cons_of_mem _ hg)
    rw [List.foldlM_cons]
    by_cases hr : f.readable = true
    · obtain ⟨n, hn⟩ := ih _ htail
      refine ⟨n, ?_⟩
      rw [feed, if_neg (by rw [hr]; decide), if_pos (h f List.mem_cons_self hr)]
      change files.foldlM (feed H) _ = _
      rw [hn]
      simp [hr, tagged, SourceFile.content]
    · obtain ⟨n, hn⟩ := ih fed htail
      refine ⟨n, ?_⟩
      rw [Bool.not_eq_true] at hr
      rw [feed, if_pos hr]
      change files.foldlM (feed H) fed = _
      rw [hn]
      simp [hr]

theorem foldlM_feed_error {files : List SourceFile} (fed : List UInt8 × ℕ)
    (h : ∃ f ∈ files, f.readable = true ∧ H.encodes f.rel = false) :
    ∃ x, files.foldlM (feed H) fed = .error x := by
  induction files generalizing fed with
  | nil => simp at h
  | cons f files ih =>
    rw [List.foldlM_cons]
    cases hf : feed H fed f with
    | error x => exact ⟨x, rfl⟩
    | ok fed' =>
      refine ih fed' ?_
      obtain ⟨g, hg, hread, henc⟩ := h
      rcases List.mem_cons.1 hg with rfl | hg
      · simp [feed, hread, henc] at hf
      · exact ⟨g, hg, hread, henc⟩

/-- `_digest_directory` returns the digest `d`. -/
def Source.HasDigest (H : Host) (s : Source) (d : String) : Prop :=
  ∃ count bytes, digestDirectory H s = .ok (d, count, bytes)

/-- **The digest is the hash of the framed names and contents of the covered files.** -/
theorem hasDigest_iff {s : Source} {d : String} :
    s.HasDigest H d ↔ s.Encodable H ∧ d = "sha256:" ++ hex (H.digest (s.fed H)) := by
  by_cases henc : s.Encodable H
  · have hfiles : ∀ f ∈ s.iterTextFiles.insertionSort SourceFile.Le,
        f.readable = true → H.encodes f.rel = true := by
      intro f hf hr
      exact henc f.content (List.mem_map_of_mem (List.mem_filter.2 ⟨hf, hr⟩))
    obtain ⟨n, hn⟩ := foldlM_feed ([], 0) hfiles
    rw [Source.HasDigest, digestDirectory, hn]
    constructor
    · rintro ⟨count, bytes, h⟩
      cases h
      exact ⟨henc, rfl⟩
    · rintro ⟨-, rfl⟩
      exact ⟨_, _, rfl⟩
  · refine ⟨?_, fun h => absurd h.1 henc⟩
    rintro ⟨count, bytes, h⟩
    simp only [Source.Encodable, not_forall, exists_prop] at henc
    obtain ⟨x, hx, hxe⟩ := henc
    obtain ⟨f, hf, rfl⟩ := List.mem_map.1 hx
    obtain ⟨hf, hr⟩ := List.mem_filter.1 hf
    obtain ⟨e, he⟩ := foldlM_feed_error ([], 0) ⟨f, hf, hr, by simpa [SourceFile.content] using hxe⟩
    rw [digestDirectory, he] at h
    cases h

/-- A digest can be encoded. -/
theorem encodes_digest {s : Source} {trust : TrustReport} (h : inspectSource H s = .ok trust) :
    H.encodes trust.digest = true := by
  unfold inspectSource at h
  cases hd : digestDirectory H s with
  | error e =>
    rw [hd] at h
    cases h
  | ok d =>
    obtain ⟨digest, count, bytes⟩ := d
    have hdigest : trust.digest = digest := by
      by_cases hfile : s.isFile = true
      · simp only [hd, hfile, if_true, bind, Except.bind, pure, Except.pure] at h
        exact Except.ok.inj h ▸ rfl
      · cases hl : s.license with
        | error e => simp [hd, hfile, hl, bind, Except.bind] at h
        | ok license =>
          simp only [hd, hfile, hl, bind, Except.bind, pure, Except.pure] at h
          exact Except.ok.inj h ▸ rfl
    rw [hdigest, (hasDigest_iff.1 ⟨count, bytes, hd⟩).2, H.encodes_append,
      H.encodes_ascii _ (by decide), H.encodes_ascii _ (ascii_hex _)]
    rfl

/-! ### Two sources -/

/-- The two sources hold the same files with the same contents. -/
def SameFiles (s t : Source) : Prop := ∀ x, x ∈ s.contents ↔ x ∈ t.contents

/-- The files that the digest covers are the same in both sources. -/
def SameCovered (s t : Source) : Prop := ∀ x, x ∈ s.covered ↔ x ∈ t.covered

/-- The hash has no collision among what it is fed for the two sources. -/
structure Source.NoCollision (H : Host) (s t : Source) : Prop where
  fed : H.digest (s.fed H) = H.digest (t.fed H) → s.fed H = t.fed H
  data : ∀ x ∈ s.covered, ∀ y ∈ t.covered, H.digest x.2 = H.digest y.2 → x.2 = y.2

theorem Source.covered_sublist (s : Source) :
    s.covered.Sublist ((s.iterTextFiles.insertionSort SourceFile.Le).map SourceFile.content) :=
  List.Sublist.map _ List.filter_sublist

theorem Source.iterTextFiles_sublist (s : Source) : s.iterTextFiles.Sublist s.files := by
  unfold Source.iterTextFiles
  split_ifs
  · exact List.Sublist.refl _
  · exact List.filter_sublist

/-- A covered file is one of the files of the source. -/
theorem Source.covered_subset (s : Source) {x : Content} (h : x ∈ s.covered) : x ∈ s.contents := by
  obtain ⟨f, hf, rfl⟩ := List.mem_map.1 (s.covered_sublist.subset h)
  exact List.mem_map_of_mem (s.iterTextFiles_sublist.subset ((List.mem_insertionSort _).1 hf))

/-- The covered files have different paths. -/
theorem Source.nodup_covered (s : Source) : (s.covered.map (·.1)).Nodup := by
  have hperm : ((s.iterTextFiles.insertionSort SourceFile.Le).map (·.rel)).Nodup :=
    ((List.perm_insertionSort _ _).map _).nodup_iff.2
      ((s.iterTextFiles_sublist.map (·.rel)).nodup s.nodup)
  refine (s.covered_sublist.map (·.1)).nodup ?_
  rwa [List.map_map]

instance : Std.Total SourceFile.Le := ⟨fun f g => le_total (pathParts f.rel) (pathParts g.rel)⟩

instance : IsTrans SourceFile SourceFile.Le :=
    ⟨fun _ _ _ hab hbc => le_trans (α := List (List Char)) hab hbc⟩

/-- The covered files stand in the order of their paths. -/
theorem Source.pairwise_covered (s : Source) :
    s.covered.Pairwise fun x y => pathParts x.1 ≤ pathParts y.1 :=
  List.pairwise_map.2 ((List.pairwise_insertionSort SourceFile.Le _).filter _)

/-- The parts of a path determine it. -/
theorem pathParts_injective : Function.Injective pathParts := by
  intro p q h
  have h' := congrArg (List.intercalate ['/']) h
  simp only [pathParts, List.intercalate_splitOn] at h'
  exact String.toList_inj.1 h'

/-- The same files are fed to the hash in the same order. -/
theorem SameCovered.eq {s t : Source} (h : SameCovered s t) : s.covered = t.covered := by
  have hperm : s.covered.Perm t.covered :=
    (List.perm_ext_iff_of_nodup s.nodup_covered.of_map t.nodup_covered.of_map).2 h
  refine hperm.eq_of_pairwise ?_ s.pairwise_covered t.pairwise_covered
  intro x y hx hy hxy hyx
  have hpath : x.1 = y.1 := pathParts_injective (le_antisymm hxy hyx)
  exact List.inj_on_of_nodup_map t.nodup_covered ((h x).1 hx) hy hpath

theorem Source.wellFramed (s : Source) :
    ∀ p ∈ s.covered.map (tagged H), Framing.WellFramed 0 32 p := by
  intro p hp
  obtain ⟨x, hx, rfl⟩ := List.mem_map.1 hp
  obtain ⟨f, -, rfl⟩ := List.mem_map.1 (s.covered_subset hx)
  exact ⟨zero_notMem_utf8 f.noNul, H.digest_length _⟩

theorem Source.NoCollision.symm {s t : Source} (h : Source.NoCollision H s t) :
    Source.NoCollision H t s where
  fed heq := (h.fed heq.symm).symm
  data x hx y hy heq := (h.data y hy x hx heq.symm).symm

/-- A name and a hash on both sides belong to one file. -/
theorem Source.NoCollision.mem_of_tags {s t : Source} (h : Source.NoCollision H s t)
    (htags : s.covered.map (tagged H) = t.covered.map (tagged H)) {x : Content}
    (hx : x ∈ s.covered) : x ∈ t.covered := by
  have hx' : tagged H x ∈ t.covered.map (tagged H) := htags ▸ List.mem_map_of_mem hx
  obtain ⟨y, hy, hyx⟩ := List.mem_map.1 hx'
  obtain ⟨hname, hdata⟩ := Prod.mk.inj hyx
  have hxy : x = y :=
    Prod.ext (String.toList_inj.1 (utf8_injective hname.symm)) (h.data x hx y hy hdata.symm)
  rwa [hxy]

/-- **Two sources have one digest exactly when the files that it covers agree.** -/
theorem sameDigest_iff {s t : Source} (hcol : Source.NoCollision H s t) :
    (∃ d, s.HasDigest H d ∧ t.HasDigest H d) ↔
      s.Encodable H ∧ t.Encodable H ∧ SameCovered s t := by
  simp only [hasDigest_iff]
  constructor
  · rintro ⟨d, ⟨hs, rfl⟩, ht, hd⟩
    refine ⟨hs, ht, ?_⟩
    have hhex : (hex (H.digest (s.fed H))).toList = (hex (H.digest (t.fed H))).toList := by
      simpa [String.toList_append] using congrArg (List.drop 7) (congrArg String.toList hd)
    have htags := Framing.encode_injective s.wellFramed t.wellFramed
      (hcol.fed (hex_injective (String.toList_inj.1 hhex)))
    exact fun x => ⟨hcol.mem_of_tags htags, hcol.symm.mem_of_tags htags.symm⟩
  · rintro ⟨hs, ht, hst⟩
    refine ⟨_, ⟨hs, rfl⟩, ht, ?_⟩
    rw [Source.fed, hst.eq, Source.fed]

end Shiroe
