import Shiroe.Transfer.Bundle

/-!
# What an extraction leaves behind

The files of a bundle are written to a temporary folder beside the destination, and two renames put
that folder in the place of the destination.  If the call raises before the second rename has
happened, the destination is what it was.  Behind it only the backup is left to remove, and when
that fails the call raises although the destination is the new one.

* `At` : what lies at the three paths, and whether anything else was written;
* `makeTmp_spec`, `stageAll_spec`, `swap_spec`, `recover_spec`, `restore_spec` : the phases;
* `extraction_safe_iff` : exactly when the destination is left alone by a call that raises, and
  nothing beside it is written.
-/

namespace Shiroe

open Act

/-! ### What a manifest promises -/

/-- The paths of the entries: each leads down, and none twice. -/
structure WellNamed (files : List FileEntry) : Prop where
  ne_nil : ∀ e ∈ files, e.path ≠ []
  down : ∀ e ∈ files, ".." ∉ e.path
  nodup : (files.map (·.path)).Nodup

theorem validateRelativePath_spec {path : String} {rel : TreePath}
    (h : validateRelativePath path = .ok rel) : rel ≠ [] ∧ ".." ∉ rel := by
  unfold validateRelativePath at h
  split_ifs at h with hbad hnil
  cases h
  rw [not_or, not_or] at hbad
  exact ⟨hnil, hbad.2.2⟩

theorem WellNamed.normalizeEntry {seen files : List FileEntry} {entry : Json} (h : WellNamed seen)
    (hok : normalizeEntry seen entry = .ok files) : WellNamed files := by
  unfold Shiroe.normalizeEntry at hok
  by_cases hobj : entry.isObj = false
  · rw [if_pos hobj] at hok
    cases hok
  rw [if_neg hobj] at hok
  obtain ⟨path, hpath, hok⟩ := except_bind_eq_ok.1 hok
  obtain ⟨hne, hdown⟩ := validateRelativePath_spec hpath
  dsimp only at hok
  split_ifs at hok with hseen hdigest hsize
  cases hok
  exact ⟨List.forall_mem_cons.2 ⟨hne, h.ne_nil⟩, List.forall_mem_cons.2 ⟨hdown, h.down⟩,
    List.nodup_cons.2 ⟨hseen, h.nodup⟩⟩

variable {H : Host}

theorem wellNamed_of_readBundle {bundle : Except Exc (List Member)} {m : ArtifactBundleManifest}
    {payloads : List (TreePath × List UInt8)} (h : readBundle H bundle = .ok (m, payloads)) :
    WellNamed m.files := by
  obtain ⟨members, -, h⟩ := except_bind_eq_ok.1 h
  obtain ⟨c, -, h⟩ := except_bind_eq_ok.1 h
  dsimp only at h
  split at h
  · cases h
  · obtain ⟨manifest, hm, h⟩ := except_bind_eq_ok.1 h
    split_ifs at h
    cases h
    obtain ⟨parsed, -, hm⟩ := except_bind_eq_ok.1 hm
    dsimp only at hm
    split_ifs at hm
    split at hm
    · obtain ⟨files, hfiles, hm⟩ := except_bind_eq_ok.1 hm
      split_ifs at hm
      cases hm
      have hwell : WellNamed files :=
        except_foldlM_keeps (fun _ _ _ _ hb hok => hb.normalizeEntry hok)
          (b := []) ⟨by simp, by simp, by simp⟩ hfiles
      exact ⟨by simpa using hwell.ne_nil, by simpa using hwell.down,
        by simpa [List.map_reverse] using hwell.nodup⟩
    · cases hm

/-! ### The tree of a bundle -/

/-- Nothing lies there. -/
def nothing : TreePath → Option Entry := fun _ => none

/-- The files of a bundle in their folders. -/
def bundleTree (files : List (TreePath × List UInt8)) : TreePath → Option Entry := fun s =>
  match files.lookup s with
  | some data => some (.file data)
  | none => if s = [] ∨ ∃ f ∈ files, s <+: f.1 then some .folder else none

/-- The payloads of the entries. -/
def deliver (payloads : List (TreePath × List UInt8)) (files : List FileEntry) :
    List (TreePath × List UInt8) :=
  files.map fun e => (e.path, (payloads.lookup e.path).getD [])

theorem prefix_dropLast {s l : TreePath} (hl : l ≠ []) : s <+: l.dropLast ↔ s <+: l ∧ s ≠ l := by
  constructor
  · intro h
    refine ⟨h.trans l.dropLast_prefix, ?_⟩
    rintro rfl
    have hlen := h.length_le
    have hpos := List.length_pos_iff.2 hl
    rw [List.length_dropLast] at hlen
    omega
  · rintro ⟨⟨t, rfl⟩, hne⟩
    have ht : t ≠ [] := by
      rintro rfl
      exact hne (List.append_nil s).symm
    rw [List.dropLast_append_of_ne_nil ht]
    exact List.prefix_append s _

theorem lookup_eq_none_iff {files : List (TreePath × List UInt8)} {s : TreePath} :
    files.lookup s = none ↔ ∀ f ∈ files, f.1 ≠ s := by
  rw [List.lookup_eq_none_iff]
  exact forall₂_congr fun f _ => by rw [bne_iff_ne, ne_comm]

/-- What making the folders of one more file and writing it does to the tree. -/
theorem bundleTree_append {files : List (TreePath × List UInt8)} {rel : TreePath}
    {data : List UInt8} (hrel : rel ≠ []) (hnew : ∀ f ∈ files, f.1 ≠ rel)
    (hfolders : ∀ f ∈ files, ¬ f.1 <+: rel.dropLast) :
    bundleTree (files ++ [(rel, data)]) =
      Function.update (fun s => if s ≠ [] ∧ s <+: rel.dropLast then some .folder
        else bundleTree files s) rel (some (.file data)) := by
  funext s
  by_cases hs : s = rel
  · subst hs
    have hnone := lookup_eq_none_iff.2 hnew
    simp [bundleTree, List.lookup_append, hnone]
  · rw [Function.update_of_ne hs]
    have hkey : (s == rel) = false := by simpa using hs
    cases hlook : files.lookup s with
    | some d =>
      obtain ⟨f, hf, hkey'⟩ : ∃ f ∈ files, f.1 = s := by
        by_contra hcon
        push Not at hcon
        rw [lookup_eq_none_iff.2 hcon] at hlook
        cases hlook
      have hpre : ¬ s <+: rel.dropLast := hkey' ▸ hfolders f hf
      simp [bundleTree, List.lookup_append, hlook, hpre]
    | none =>
      have hmore : (s = [] ∨ ∃ f ∈ files ++ [(rel, data)], s <+: f.1) ↔
          (s ≠ [] ∧ s <+: rel.dropLast) ∨ (s = [] ∨ ∃ f ∈ files, s <+: f.1) := by
        simp only [List.mem_append, List.mem_singleton, prefix_dropLast hrel]
        by_cases hnil : s = []
        · simp [hnil]
        · constructor
          · rintro (h | ⟨f, hf | rfl, hpre⟩)
            · exact absurd h hnil
            · exact Or.inr (Or.inr ⟨f, hf, hpre⟩)
            · exact Or.inl ⟨hnil, hpre, hs⟩
          · rintro (⟨-, hpre, -⟩ | h | ⟨f, hf, hpre⟩)
            · exact Or.inr ⟨_, Or.inr rfl, hpre⟩
            · exact absurd h hnil
            · exact Or.inr ⟨f, Or.inl hf, hpre⟩
      have hlook' : (files ++ [(rel, data)]).lookup s = none := by
        simp [List.lookup_append, hlook, List.lookup_cons, hkey]
      simp only [bundleTree, hlook, hlook', hmore]
      by_cases hpre : s ≠ [] ∧ s <+: rel.dropLast
      · rw [if_pos hpre, if_pos (Or.inl hpre)]
      · rw [if_neg hpre]
        simp only [hpre, false_or]

namespace Extraction

variable {x : Extraction}

/-! ### Paths and faults -/

/-- The call fails. -/
def Fails (x : Extraction) (c : FsCall) : Prop := ∃ f, x.fault = some f ∧ f.call = c

instance (x : Extraction) (c : FsCall) : Decidable (x.Fails c) :=
  match h : x.fault with
  | none => isFalse (by rintro ⟨f, hf, -⟩; rw [h] at hf; cases hf)
  | some f => decidable_of_iff (f.call = c)
      ⟨fun hc => ⟨f, h, hc⟩, by rintro ⟨f', hf, hc⟩; rw [h] at hf; cases hf; exact hc⟩

/-- Only one call fails. -/
theorem Fails.eq {c c' : FsCall} (h : x.Fails c) (h' : x.Fails c') : c = c' := by
  obtain ⟨f, hf, rfl⟩ := h
  obtain ⟨f', hf', rfl⟩ := h'
  rw [hf] at hf'
  cases hf'
  rfl

/-- The path lies at or below one of the three paths of the call. -/
def InArea (x : Extraction) (p : TreePath) : Prop := x.dest <+: p ∨ x.tmp <+: p ∨ x.backup <+: p

theorem tmp_beside_backup : Beside x.tmp x.backup := by
  refine beside_of_ne fun h => ?_
  have h := congrArg String.toList h
  simp [String.toList_append] at h

theorem tmp_beside_dest : Beside x.tmp x.dest := by
  refine beside_of_ne fun h => ?_
  have h := congrArg (fun s : String => s.toList.length) h
  simp [String.toList_append] at h
  omega

theorem backup_beside_dest : Beside x.backup x.dest := by
  refine beside_of_ne fun h => ?_
  have h := congrArg (fun s : String => s.toList.length) h
  simp [String.toList_append] at h
  omega

/-- What lies at the three paths, and whether anything was written beside them. -/
structure At (x : Extraction) (strays : Prop) (tmp backup dest : TreePath → Option Entry)
    (d : Disk) : Prop where
  tmp : d.below x.tmp = tmp
  backup : d.below x.backup = backup
  dest : d.below x.dest = dest
  strays : (∃ p ∈ d.written, ¬ x.InArea p) ↔ strays

variable {strays : Prop} {t b c : TreePath → Option Entry} {d : Disk}

theorem At.entry_tmp (h : At x strays t b c d) : d.entry x.tmp = t [] := by
  rw [← h.tmp, Disk.below, List.append_nil]

theorem At.entry_backup (h : At x strays t b c d) : d.entry x.backup = b [] := by
  rw [← h.backup, Disk.below, List.append_nil]

theorem At.entry_dest (h : At x strays t b c d) : d.entry x.dest = c [] := by
  rw [← h.dest, Disk.below, List.append_nil]

theorem strays_append {old new : List TreePath} (h : ∀ p ∈ new, x.InArea p) :
    (∃ p ∈ old ++ new, ¬ x.InArea p) ↔ ∃ p ∈ old, ¬ x.InArea p := by
  constructor
  · rintro ⟨p, hp, hout⟩
    rcases List.mem_append.1 hp with hp | hp
    · exact ⟨p, hp, hout⟩
    · exact absurd (h p hp) hout
  · rintro ⟨p, hp, hout⟩
    exact ⟨p, List.mem_append_left _ hp, hout⟩

theorem At.put (h : At x strays t b c d) (s : TreePath) (e : Entry) :
    At x strays (Function.update t s (some e)) b c (d.put (x.tmp ++ s) e) where
  tmp := by rw [Disk.below_put, h.tmp]
  backup := by rw [Disk.below_put_of_not e (tmp_beside_backup.not_prefix s), h.backup]
  dest := by rw [Disk.below_put_of_not e (tmp_beside_dest.not_prefix s), h.dest]
  strays := by
    refine (strays_append fun p hp => ?_).trans h.strays
    rw [List.mem_singleton.1 hp]
    exact Or.inr (Or.inl (List.prefix_append x.tmp s))

theorem At.removeTmp (h : At x strays t b c d) : At x strays nothing b c (d.remove x.tmp) where
  tmp := Disk.below_remove
  backup := by rw [Disk.below_remove_of_beside tmp_beside_backup.symm, h.backup]
  dest := by rw [Disk.below_remove_of_beside tmp_beside_dest.symm, h.dest]
  strays := (strays_append (by simp [InArea])).trans h.strays

theorem At.removeBackup (h : At x strays t b c d) :
    At x strays t nothing c (d.remove x.backup) where
  tmp := by rw [Disk.below_remove_of_beside tmp_beside_backup, h.tmp]
  backup := Disk.below_remove
  dest := by rw [Disk.below_remove_of_beside backup_beside_dest.symm, h.dest]
  strays := (strays_append (by simp [InArea])).trans h.strays

theorem At.thinTmp (h : At x strays t b c d) (left : TreePath → Bool) :
    ∃ t', At x strays t' b c (d.thin x.tmp left) :=
  ⟨_, { tmp := rfl
        backup := by rw [Disk.below_thin_of_beside tmp_beside_backup.symm, h.backup]
        dest := by rw [Disk.below_thin_of_beside tmp_beside_dest.symm, h.dest]
        strays := (strays_append (by simp [InArea])).trans h.strays }⟩

theorem At.thinBackup (h : At x strays t b c d) (left : TreePath → Bool) :
    ∃ b', At x strays t b' c (d.thin x.backup left) :=
  ⟨_, { tmp := by rw [Disk.below_thin_of_beside tmp_beside_backup, h.tmp]
        backup := rfl
        dest := by rw [Disk.below_thin_of_beside backup_beside_dest.symm, h.dest]
        strays := (strays_append (by simp [InArea])).trans h.strays }⟩

theorem At.moveAside (h : At x strays t b c d) :
    At x strays t c nothing (d.move x.dest x.backup) where
  tmp := by rw [Disk.below_move_of_beside tmp_beside_dest tmp_beside_backup, h.tmp]
  backup := by rw [Disk.below_move_dst, h.dest]
  dest := Disk.below_move_src backup_beside_dest.symm
  strays := (strays_append (by simp [InArea])).trans h.strays

theorem At.install (h : At x strays t b c d) : At x strays nothing b t (d.move x.tmp x.dest) where
  tmp := Disk.below_move_src tmp_beside_dest
  backup := by rw [Disk.below_move_of_beside tmp_beside_backup.symm backup_beside_dest, h.backup]
  dest := by rw [Disk.below_move_dst, h.tmp]
  strays := (strays_append (by simp [InArea])).trans h.strays

theorem At.restore (h : At x strays t b c d) :
    At x strays t nothing b (d.move x.backup x.dest) where
  tmp := by rw [Disk.below_move_of_beside tmp_beside_backup tmp_beside_dest, h.tmp]
  backup := Disk.below_move_src backup_beside_dest
  dest := by rw [Disk.below_move_dst, h.backup]
  strays := (strays_append (by simp [InArea])).trans h.strays

/-! ### The calls -/

theorem failing_spec {call : FsCall} {partly : Fault → Files Unit} {Q : Unit → Disk → Prop}
    {E : Exc → Disk → Prop} (hok : ¬ x.Fails call → Q () d)
    (hfail : ∀ f, x.fault = some f → f.call = call →
      Act.wp (partly f) (fun _ d' => E .osError d') E d) :
    Act.wp (x.failing call partly) Q E d := by
  unfold failing
  cases hx : x.fault with
  | none => exact (Act.wp_pure _).2 (hok (by rintro ⟨f, hf, -⟩; rw [hx] at hf; cases hf))
  | some f =>
    by_cases hc : f.call = call
    · simp only [if_pos hc, Act.wp_bind, Act.wp_throw]
      exact hfail f hx hc
    · simp only [if_neg hc]
      refine (Act.wp_pure _).2 (hok ?_)
      rintro ⟨f', hf, hc'⟩
      rw [hx] at hf
      cases hf
      exact hc hc'

theorem exists_spec {call : FsCall} {p : TreePath} {Q : Bool → Disk → Prop}
    {E : Exc → Disk → Prop} (hok : ¬ x.Fails call → Q (pathExists (d.entry p)) d)
    (hfail : x.Fails call → E .osError d) : Act.wp (x.exists? call p) Q E d := by
  rw [exists?, Act.wp_bind]
  refine failing_spec (fun h => ?_) fun f hf hc => (Act.wp_pure _).2 (hfail ⟨f, hf, hc⟩)
  rw [Act.wp_bind, Act.wp_get]
  exact (Act.wp_pure _).2 (hok h)

theorem replace_spec {call : FsCall} {src dst : TreePath} {Q : Unit → Disk → Prop}
    {E : Exc → Disk → Prop}
    (hok : ¬ x.Fails call → replaceable (d.entry src) (d.entry dst) = true → Q () (d.move src dst))
    (hbad : ¬ x.Fails call → replaceable (d.entry src) (d.entry dst) = false → E .osError d)
    (hfail : x.Fails call → E .osError d) : Act.wp (x.replace call src dst) Q E d := by
  rw [replace, Act.wp_bind]
  refine failing_spec (fun h => ?_) fun f hf hc => (Act.wp_pure _).2 (hfail ⟨f, hf, hc⟩)
  rw [Act.wp_bind, Act.wp_get, Act.wp_ite]
  exact ⟨fun hr => (Act.wp_set _).2 (hok h hr),
    fun hr => (Act.wp_throw _).2 (hbad h (by simpa using hr))⟩

theorem removeTree_spec {call : FsCall} {p : TreePath} {Q : Unit → Disk → Prop}
    {E : Exc → Disk → Prop}
    (hok : ¬ x.Fails call → d.entry p = some .folder → Q () (d.remove p))
    (hbad : ¬ x.Fails call → d.entry p ≠ some .folder → E .osError d)
    (hfail : ∀ left, x.Fails call → E .osError (d.thin p left)) :
    Act.wp (x.removeTree call p) Q E d := by
  rw [removeTree, Act.wp_bind]
  refine failing_spec (fun h => ?_) fun f hf hc => (Act.wp_modify _).2 (hfail f.left ⟨f, hf, hc⟩)
  rw [Act.wp_bind, Act.wp_get, Act.wp_ite]
  exact ⟨fun hr => (Act.wp_set _).2 (hok h hr), fun hr => (Act.wp_throw _).2 (hbad h hr)⟩

/-! ### Making the temporary folder -/

/-- The folders above that `tmp.mkdir` goes through. -/
def walked (x : Extraction) : List String :=
  match x.fault with
  | some f => if f.call = .makeTmp then x.parent.take f.made else x.parent
  | none => x.parent

/-- The temporary folder can be made, with the folders above it. -/
def CanMakeTmp (x : Extraction) (d : Disk) : Prop :=
  ¬ x.Fails .makeTmp ∧ d.CanMake x.refuses [] x.parent ∧ x.refuses x.tmp = false

theorem not_inArea_of_prefix {p : TreePath} (hp : p <+: x.parent) : ¬ x.InArea p := by
  have hlen := hp.length_le
  rintro (h | h | h) <;>
  · have h := h.length_le
    simp only [dest, tmp, backup, List.length_append, List.length_singleton] at h
    omega

theorem makeParents_spec {l : List String} (hl : l <+: x.parent)
    (h : At x False nothing nothing c d) :
    Act.wp (makeDirs x.refuses Exc.osError [] l)
      (fun _ d' => d.CanMake x.refuses [] l ∧
        At x (d.Makes x.refuses [] l) nothing nothing c d')
      (fun _ d' => ¬ d.CanMake x.refuses [] l ∧
        At x (d.Makes x.refuses [] l) nothing nothing c d') d := by
  have hdown : ".." ∉ l := fun hmem => x.resolved (hl.subset hmem)
  have hout : ∀ q ∈ onWay [] l, ¬ x.InArea q := fun q hq =>
    not_inArea_of_prefix ((mem_onWay.1 hq).2.1.trans hl)
  -- the entries and the log of the same run
  have hat : ∀ d' : Disk, (∀ q, q ∉ onWay [] l → d'.entry q = d.entry q) →
      (∃ new, d'.written = d.written ++ new ∧ (∀ p ∈ new, p ∈ onWay [] l) ∧
        (new ≠ [] ↔ d.Makes x.refuses [] l)) →
      At x (d.Makes x.refuses [] l) nothing nothing c d' := by
    rintro d' hsame ⟨new, hw, hmem, hiff⟩
    refine ⟨?_, ?_, ?_, ?_⟩
    · rw [← h.tmp]
      funext s
      exact hsame _ fun hq => hout _ hq (Or.inr (Or.inl (List.prefix_append x.tmp s)))
    · rw [← h.backup]
      funext s
      exact hsame _ fun hq => hout _ hq (Or.inr (Or.inr (List.prefix_append x.backup s)))
    · rw [← h.dest]
      funext s
      exact hsame _ fun hq => hout _ hq (Or.inl (List.prefix_append x.dest s))
    · rw [hw, ← hiff]
      constructor
      · rintro ⟨p, hp, hout'⟩ rfl
        rw [List.append_nil] at hp
        exact h.strays.1 ⟨p, hp, hout'⟩
      · intro hne
        obtain ⟨p, hp⟩ := List.exists_mem_of_ne_nil _ hne
        exact ⟨p, List.mem_append_right _ hp, hout p (hmem p hp)⟩
  refine Act.wp_mono (Act.wp_and (makeDirs_spec [] hdown) (makeDirs_written [] hdown))
    (fun _ d' hd => ?_) fun _ d' hd => ?_
  · refine ⟨hd.1.1, hat d' (fun q hq => ?_) hd.2⟩
    rw [hd.1.2]
    exact if_neg hq
  · exact ⟨hd.1.1, hat d' hd.1.2 hd.2⟩

theorem bundleTree_nil : Function.update nothing [] (some .folder) = bundleTree [] := by
  funext s
  by_cases hs : s = []
  · simp [hs, bundleTree]
  · simp [hs, bundleTree, nothing]

theorem makeTmp_spec (h : At x False nothing nothing c d) :
    Act.wp x.makeTmp
      (fun _ d' => x.CanMakeTmp d ∧
        At x (d.Makes x.refuses [] x.walked) (bundleTree []) nothing c d')
      (fun _ d' => ¬ x.CanMakeTmp d ∧
        ∃ t, At x (d.Makes x.refuses [] x.walked) t nothing c d') d := by
  rw [makeTmp, Act.wp_bind]
  refine failing_spec (fun hok => ?_) fun f hf hc => ?_
  · have hwalked : x.walked = x.parent := by
      unfold walked
      split
      · rename_i f hf
        exact if_neg fun hc => hok ⟨f, hf, hc⟩
      · rfl
    rw [hwalked, Act.wp_bind]
    refine Act.wp_mono (makeParents_spec (List.prefix_refl _) h) (fun _ d₁ h₁ => ?_)
      fun _ d₁ h₁ => ⟨fun hcan => h₁.1 hcan.2.1, _, h₁.2⟩
    have hnone : d₁.entry x.tmp = none := h₁.2.entry_tmp
    rw [Act.wp_bind, Act.wp_get, hnone]
    simp only [Option.isSome_none, Bool.false_eq_true, if_false]
    rw [wp_makeDir, hnone]
    by_cases href : x.refuses x.tmp = true
    · refine (iff_of_eq (if_pos href)).2 ⟨fun hcan => ?_, _, h₁.2⟩
      cases href.symm.trans hcan.2.2
    · have hput := h₁.2.put [] .folder
      rw [List.append_nil, bundleTree_nil] at hput
      exact (iff_of_eq (if_neg href)).2 ⟨⟨hok, h₁.1, by simpa using href⟩, hput⟩
  · have hwalked : x.walked = x.parent.take f.made := by
      simp only [walked, hf, if_pos hc]
    have hno : ¬ x.CanMakeTmp d := fun hcan => hcan.1 ⟨f, hf, hc⟩
    rw [hwalked]
    exact Act.wp_mono (makeParents_spec (List.take_prefix _ _) h)
      (fun _ d' hd => ⟨hno, _, hd.2⟩) fun _ d' hd => ⟨hno, _, hd.2⟩

/-! ### Writing the files -/

/-- Nothing on the way to the path is refused. -/
def Admits (x : Extraction) (rel : TreePath) : Prop :=
  ∀ s, s ≠ [] → s <+: rel → x.refuses (x.tmp ++ s) = false

/-- The entry passes its checks, and no call for it fails. -/
structure Stages (x : Extraction) (H : Host) (payloads : List (TreePath × List UInt8))
    (e : FileEntry) : Prop where
  checked : ∃ data, checkPayload H payloads e = .ok data
  parent : ¬ x.Fails (.makeParent e.path)
  write : ¬ x.Fails (.write e.path)
  admitted : x.Admits e.path

theorem makeBelow_spec {l : List String} (hdown : ".." ∉ l) (h : At x strays t b c d) :
    Act.wp (makeDirs x.refuses Exc.osError x.tmp l)
      (fun _ d' => (∀ s, s ≠ [] → s <+: l →
          t s = some .folder ∨ t s = none ∧ x.refuses (x.tmp ++ s) = false) ∧
        At x strays (fun s => if s ≠ [] ∧ s <+: l then some .folder else t s) b c d')
      (fun _ d' => (¬ ∀ s, s ≠ [] → s <+: l →
          t s = some .folder ∨ t s = none ∧ x.refuses (x.tmp ++ s) = false) ∧
        ∃ t', At x strays t' b c d') d := by
  have hway : ∀ s, x.tmp ++ s ∈ onWay x.tmp l ↔ s ≠ [] ∧ s <+: l := by
    intro s
    rw [mem_onWay, List.prefix_append_right_inj]
    simp [and_comm]
  have hcan : d.CanMake x.refuses x.tmp l ↔ ∀ s, s ≠ [] → s <+: l →
      t s = some .folder ∨ t s = none ∧ x.refuses (x.tmp ++ s) = false := by
    rw [← h.tmp]
    constructor
    · exact fun hc s hs hl => hc _ ((hway s).2 ⟨hs, hl⟩)
    · intro hc p hp
      obtain ⟨s, rfl⟩ := (mem_onWay.1 hp).1
      obtain ⟨hs, hl⟩ := (hway s).1 hp
      exact hc s hs hl
  have hbelow : ∀ q ∈ onWay x.tmp l, x.tmp <+: q := fun q hq => (mem_onWay.1 hq).1
  have hframe : ∀ d' : Disk, (∀ q, q ∉ onWay x.tmp l → d'.entry q = d.entry q) →
      (∃ new, d'.written = d.written ++ new ∧ (∀ p ∈ new, p ∈ onWay x.tmp l) ∧
        (new ≠ [] ↔ d.Makes x.refuses x.tmp l)) →
      At x strays (d'.below x.tmp) b c d' := by
    rintro d' hsame ⟨new, hw, hmem, -⟩
    refine ⟨rfl, ?_, ?_, ?_⟩
    · rw [← h.backup]
      funext s
      exact hsame _ fun hq => tmp_beside_backup.symm.not_prefix s (hbelow _ hq)
    · rw [← h.dest]
      funext s
      exact hsame _ fun hq => tmp_beside_dest.symm.not_prefix s (hbelow _ hq)
    · rw [hw]
      exact (strays_append fun p hp => Or.inr (Or.inl (hbelow p (hmem p hp)))).trans h.strays
  refine Act.wp_mono (Act.wp_and (makeDirs_spec x.tmp hdown) (makeDirs_written x.tmp hdown))
    (fun _ d' hd => ?_) fun _ d' hd => ?_
  · obtain ⟨⟨hc, hentry⟩, hw⟩ := hd
    have hat := hframe d' (fun q hq => by rw [hentry]; exact if_neg hq) hw
    have ht : d'.below x.tmp = fun s => if s ≠ [] ∧ s <+: l then some .folder else t s := by
      funext s
      rw [Disk.below, hentry, ← h.tmp]
      simp only [hway, Disk.below]
    exact ⟨hcan.1 hc, ht ▸ hat⟩
  · exact ⟨fun hc => hd.1.1 (hcan.2 hc), _, hframe d' hd.1.2 hd.2⟩

/-- The files that were written lead down, through nothing that is refused. -/
structure Written (x : Extraction) (files : List (TreePath × List UInt8)) : Prop where
  ne_nil : ∀ f ∈ files, f.1 ≠ []
  admitted : ∀ f ∈ files, x.Admits f.1

theorem bundleTree_of_mem {files : List (TreePath × List UInt8)} {f : TreePath × List UInt8}
    (hf : f ∈ files) : ∃ data, bundleTree files f.1 = some (.file data) := by
  cases hlook : files.lookup f.1 with
  | none => exact absurd rfl (lookup_eq_none_iff.1 hlook f hf)
  | some data => exact ⟨data, by rw [bundleTree, hlook]⟩

theorem bundleTree_of_not_mem {files : List (TreePath × List UInt8)} {s : TreePath}
    (hs : ∀ f ∈ files, f.1 ≠ s) :
    bundleTree files s = if s = [] ∨ ∃ f ∈ files, s <+: f.1 then some .folder else none := by
  rw [bundleTree, lookup_eq_none_iff.2 hs]

/-- What stands in the way of the folders of one more file. -/
theorem folders_iff {files : List (TreePath × List UInt8)} {l : TreePath}
    (hfiles : x.Written files) :
    (∀ s, s ≠ [] → s <+: l →
      bundleTree files s = some .folder ∨
        bundleTree files s = none ∧ x.refuses (x.tmp ++ s) = false) ↔
      (∀ f ∈ files, ¬ f.1 <+: l) ∧ x.Admits l := by
  constructor
  · refine fun h => ⟨fun f hf hpre => ?_, fun s hs hpre => ?_⟩
    · obtain ⟨data, hdata⟩ := bundleTree_of_mem hf
      have hentry := h f.1 (hfiles.ne_nil f hf) hpre
      rw [hdata] at hentry
      simp at hentry
    · rcases h s hs hpre with hfolder | ⟨-, hfree⟩
      · have hnew : ∀ f ∈ files, f.1 ≠ s := by
          rintro f hf rfl
          obtain ⟨data, hdata⟩ := bundleTree_of_mem hf
          rw [hdata] at hfolder
          cases hfolder
        rw [bundleTree_of_not_mem hnew] at hfolder
        split_ifs at hfolder with hcase
        obtain ⟨f, hf, hsf⟩ := hcase.resolve_left hs
        exact hfiles.admitted f hf s hs hsf
      · exact hfree
  · rintro ⟨hno, htakes⟩ s hs hpre
    have hnew : ∀ f ∈ files, f.1 ≠ s := fun f hf heq => hno f hf (heq ▸ hpre)
    rw [bundleTree_of_not_mem hnew]
    split_ifs
    · exact Or.inl rfl
    · exact Or.inr ⟨rfl, htakes s hs hpre⟩

theorem beside_iff {p rel : TreePath} (hrel : rel ≠ []) (hne : p ≠ rel) :
    Beside p rel ↔ ¬ p <+: rel.dropLast ∧ ¬ rel <+: p := by
  rw [Beside, prefix_dropLast hrel]
  simp [hne]

theorem admits_iff {rel : TreePath} (hrel : rel ≠ []) :
    x.Admits rel ↔ x.Admits rel.dropLast ∧ x.refuses (x.tmp ++ rel) = false := by
  constructor
  · exact fun h => ⟨fun s hs hpre => h s hs (hpre.trans rel.dropLast_prefix),
      h rel hrel (List.prefix_refl _)⟩
  · rintro ⟨h, hself⟩ s hs hpre
    by_cases heq : s = rel
    · rw [heq, hself]
    · exact h s hs ((prefix_dropLast hrel).2 ⟨hpre, heq⟩)

variable {payloads : List (TreePath × List UInt8)} {e : FileEntry}

theorem checkPayload_eq_ok {data : List UInt8} (h : checkPayload H payloads e = .ok data) :
    payloads.lookup e.path = some data := by
  unfold checkPayload at h
  split at h
  · cases h
  · rename_i payload hlook
    split_ifs at h
    cases h
    exact hlook

/-- One entry is written exactly if its checks pass, no call for it fails, and no file before it
stands in its way or lies below it. -/
theorem stage_spec {files : List (TreePath × List UInt8)} (hne : e.path ≠ [])
    (hdown : ".." ∉ e.path) (hnew : ∀ f ∈ files, f.1 ≠ e.path) (hfiles : x.Written files)
    (h : At x strays (bundleTree files) nothing c d) :
    Act.wp (x.stage H payloads e)
      (fun _ d' => (x.Stages H payloads e ∧ ∀ f ∈ files, Beside f.1 e.path) ∧
        At x strays (bundleTree (files ++ [(e.path, (payloads.lookup e.path).getD [])])) nothing c
          d')
      (fun _ d' => ¬ (x.Stages H payloads e ∧ ∀ f ∈ files, Beside f.1 e.path) ∧
        ∃ t, At x strays t nothing c d') d := by
  have hdrop : ".." ∉ e.path.dropLast := fun hmem => hdown (e.path.dropLast_subset hmem)
  rw [stage, Act.wp_bind, Act.wp_ofExcept]
  cases hcheck : checkPayload H payloads e with
  | error err =>
    refine ⟨fun hs => ?_, _, h⟩
    obtain ⟨data, hdata⟩ := hs.1.checked
    rw [hcheck] at hdata
    cases hdata
  | ok data =>
    dsimp only
    rw [Act.wp_bind]
    refine failing_spec (fun hparent => ?_) fun f hf hc => ?_
    · rw [Act.wp_bind]
      refine Act.wp_mono (makeBelow_spec hdrop h) (fun _ d₁ h₁ => ?_) fun _ d₁ h₁ => ?_
      · obtain ⟨hfolders, hat⟩ := h₁
        obtain ⟨hno, htakes⟩ := (folders_iff hfiles).1 hfolders
        have hself : d₁.entry (x.tmp ++ e.path) = bundleTree files e.path := by
          rw [← Disk.below, hat.tmp]
          exact if_neg fun hcase => ((prefix_dropLast hne).1 hcase.2).2 rfl
        rw [writeBytes, follow_eq hdown, Act.wp_bind]
        refine failing_spec (fun hwrite => ?_) fun f hf hc => ?_
        · rw [Act.wp_bind, Act.wp_get, hself, bundleTree_of_not_mem hnew]
          by_cases habove : ∃ f ∈ files, e.path <+: f.1
          · rw [if_pos (Or.inr habove)]
            refine (Act.wp_throw _).2 ⟨fun hs => ?_, _, hat⟩
            obtain ⟨f, hf, hpre⟩ := habove
            exact (hs.2 f hf).2 hpre
          · rw [if_neg (not_or.2 ⟨hne, habove⟩)]
            by_cases href : x.refuses (x.tmp ++ e.path) = true
            · rw [if_pos href]
              refine (Act.wp_throw _).2 ⟨fun hs => ?_, _, hat⟩
              cases href.symm.trans ((admits_iff hne).1 hs.1.admitted).2
            · rw [if_neg href]
              refine (Act.wp_set _).2 ⟨⟨⟨⟨data, hcheck⟩, hparent, hwrite,
                (admits_iff hne).2 ⟨htakes, by simpa using href⟩⟩, fun f hf => ?_⟩, ?_⟩
              · exact (beside_iff hne (hnew f hf)).2 ⟨hno f hf, fun hpre => habove ⟨f, hf, hpre⟩⟩
              · rw [checkPayload_eq_ok hcheck, bundleTree_append hne hnew hno]
                exact hat.put e.path (.file data)
        · have hbad : ¬ (x.Stages H payloads e ∧ ∀ f ∈ files, Beside f.1 e.path) :=
            fun hs => hs.1.write ⟨f, hf, hc⟩
          cases f.data with
          | none => exact (Act.wp_pure _).2 ⟨hbad, _, hat⟩
          | some left => exact (Act.wp_modify _).2 ⟨hbad, _, hat.put e.path (.file left)⟩
      · refine ⟨fun hs => h₁.1 ((folders_iff hfiles).2 ⟨fun f hf => ?_, ?_⟩), h₁.2⟩
        · exact ((beside_iff hne (hnew f hf)).1 (hs.2 f hf)).1
        · exact ((admits_iff hne).1 hs.1.admitted).1
    · have hbad : ¬ (x.Stages H payloads e ∧ ∀ f ∈ files, Beside f.1 e.path) :=
        fun hs => hs.1.parent ⟨f, hf, hc⟩
      have htake : ".." ∉ e.path.dropLast.take f.made :=
        fun hmem => hdrop (List.mem_of_mem_take hmem)
      exact Act.wp_mono (makeBelow_spec htake h) (fun _ d' hd => ⟨hbad, _, hd.2⟩)
        fun _ d' hd => ⟨hbad, hd.2⟩

/-- The entries can all be written. -/
def Stageable (x : Extraction) (H : Host) (payloads : List (TreePath × List UInt8))
    (entries : List FileEntry) : Prop :=
  (∀ e ∈ entries, x.Stages H payloads e) ∧ entries.Pairwise fun a b => Beside a.path b.path

theorem deliver_append (payloads : List (TreePath × List UInt8)) (entries : List FileEntry)
    (e : FileEntry) : deliver payloads (entries ++ [e]) =
      deliver payloads entries ++ [(e.path, (payloads.lookup e.path).getD [])] := by
  simp [deliver]

/-- The loop writes the tree of the bundle, or stops at an entry that cannot be written. -/
theorem stageAll_spec {entries : List FileEntry} (hnamed : WellNamed entries)
    (h : At x strays (bundleTree []) nothing c d) :
    Act.wp (entries.forM (x.stage H payloads))
      (fun _ d' => x.Stageable H payloads entries ∧
        At x strays (bundleTree (deliver payloads entries)) nothing c d')
      (fun _ d' => ¬ x.Stageable H payloads entries ∧ ∃ t, At x strays t nothing c d') d := by
  refine Act.wp_mono (Act.wp_forM_parts (I := fun pre d' => x.Stageable H payloads pre ∧
    At x strays (bundleTree (deliver payloads pre)) nothing c d') ⟨⟨by simp, List.Pairwise.nil⟩, h⟩
      fun pre e post hsplit d₁ h₁ => ?_) (fun _ _ h => h) fun _ _ h => h
  have hmem : e ∈ entries := by simp [hsplit]
  have hpre : ∀ f ∈ deliver payloads pre, ∃ e' ∈ pre, f.1 = e'.path := by
    simp only [deliver, List.mem_map]
    rintro f ⟨e', he', rfl⟩
    exact ⟨e', he', rfl⟩
  have hnew : ∀ f ∈ deliver payloads pre, f.1 ≠ e.path := by
    intro f hf heq
    obtain ⟨e', he', hpath⟩ := hpre f hf
    have hnodup := hnamed.nodup
    rw [hsplit, List.map_append, List.nodup_append] at hnodup
    exact hnodup.2.2 _ (List.mem_map_of_mem he') _ (by simp) (hpath.symm.trans heq)
  have hwritten : x.Written (deliver payloads pre) := by
    constructor <;> intro f hf <;> obtain ⟨e', he', hpath⟩ := hpre f hf <;> rw [hpath]
    · exact hnamed.ne_nil e' (by simp [hsplit, he'])
    · exact (h₁.1.1 e' he').admitted
  have hbeside : (∀ f ∈ deliver payloads pre, Beside f.1 e.path) ↔
      ∀ e' ∈ pre, Beside e'.path e.path := by
    simp [deliver]
  refine Act.wp_mono (stage_spec (hnamed.ne_nil e hmem) (hnamed.down e hmem) hnew hwritten h₁.2)
    (fun _ d' hd => ?_) fun _ d' hd => ?_
  · obtain ⟨⟨hstages, hb⟩, hat⟩ := hd
    rw [hbeside] at hb
    refine ⟨⟨?_, ?_⟩, deliver_append payloads pre e ▸ hat⟩
    · simpa [or_imp, forall_and] using ⟨h₁.1.1, hstages⟩
    · exact List.pairwise_append.2 ⟨h₁.1.2, List.pairwise_singleton _ _, by simpa using hb⟩
  · refine ⟨fun hs => hd.1 ⟨hs.1 e hmem, hbeside.2 fun e' he' => ?_⟩, hd.2⟩
    have hpair := hs.2
    rw [hsplit, List.pairwise_append] at hpair
    exact hpair.2.2 e' he' e List.mem_cons_self

/-! ### The renames -/

/-- The second rename comes to pass, for what lay at the destination. -/
def Installs (x : Extraction) (old : Option Entry) : Prop :=
  ¬ x.Fails .destExists ∧ (pathExists old = true → ¬ x.Fails .moveAside) ∧ ¬ x.Fails .install ∧
    old ≠ some (.link false)

/-- Something goes wrong after it: the look for a backup fails, or the backup is not removed. -/
def FailsLate (x : Extraction) (old : Option Entry) : Prop :=
  x.Fails .backupExists ∨
    pathExists old = true ∧ (x.Fails .removeBackup ∨ old ≠ some .folder)

theorem eq_none_of_not_pathExists {e : Option Entry} (h : pathExists e = false)
    (hlink : e ≠ some (.link false)) : e = none := by
  cases e with
  | none => rfl
  | some e =>
    cases e with
    | link target =>
      cases target with
      | false => exact absurd rfl hlink
      | true => cases h
    | _ => cases h

theorem replaceable_none {e : Option Entry} (h : pathExists e = true) :
    replaceable e none = true := by
  cases e with
  | none => cases h
  | some e => cases e <;> rfl

/-- After the second rename. -/
theorem dropBackup_spec {b : TreePath → Option Entry} (h : At x strays nothing b t d) :
    Act.wp x.dropBackup
      (fun _ d' => ¬ x.FailsLate (b []) ∧ ∃ b', At x strays nothing b' t d')
      (fun _ d' => x.FailsLate (b []) ∧ ∃ b', At x strays nothing b' t d') d := by
  rw [dropBackup, Act.wp_bind]
  refine exists_spec (fun hok => ?_) fun hf => ⟨Or.inl hf, _, h⟩
  rw [h.entry_backup]
  by_cases hex : pathExists (b []) = true
  · rw [if_pos hex]
    refine removeTree_spec (fun hr hfolder => ?_) (fun hr hfolder => ?_) fun left hf => ?_
    · rw [h.entry_backup] at hfolder
      refine ⟨fun hlate => ?_, _, h.removeBackup⟩
      rcases hlate with hf | ⟨-, hf | hne⟩
      · exact hok hf
      · exact hr hf
      · exact hne hfolder
    · rw [h.entry_backup] at hfolder
      exact ⟨Or.inr ⟨hex, Or.inr hfolder⟩, _, h⟩
    · exact ⟨Or.inr ⟨hex, Or.inl hf⟩, h.thinBackup left⟩
  · rw [if_neg hex]
    refine (Act.wp_pure _).2 ⟨fun hlate => ?_, _, h⟩
    rcases hlate with hf | ⟨hex', -⟩
    · exact hok hf
    · exact hex hex'

/-- The renames and the removal of the backup: where it returns, where it raises after the second
rename, and where it raises before. -/
theorem swap_spec (ht : t [] = some .folder) (h : At x strays t nothing c d) :
    Act.wp x.swap
      (fun _ d' => (x.Installs (c []) ∧ ¬ x.FailsLate (c [])) ∧ ∃ b, At x strays nothing b t d')
      (fun _ d' =>
        (x.Installs (c []) ∧ x.FailsLate (c [])) ∧ (∃ b, At x strays nothing b t d') ∨
        ¬ x.Installs (c []) ∧ (At x strays t nothing c d' ∨
          At x strays t c nothing d' ∧ pathExists (c []) = true ∧ x.Fails .install)) d := by
  rw [swap, Act.wp_bind]
  refine exists_spec (fun hdest => ?_) fun hf => Or.inr ⟨fun hi => hi.1 hf, Or.inl h⟩
  rw [h.entry_dest]
  by_cases hex : pathExists (c []) = true
  · rw [if_pos hex, Act.wp_bind]
    refine replace_spec (fun hmove _ => ?_) (fun _ hbad => ?_) fun hf =>
      Or.inr ⟨fun hi => hi.2.1 hex hf, Or.inl h⟩
    · have hat := h.moveAside
      rw [Act.wp_bind]
      refine replace_spec (fun hinstall _ => ?_) (fun _ hbad => ?_) fun hf =>
        Or.inr ⟨fun hi => hi.2.2.1 hf, Or.inr ⟨hat, hex, hf⟩⟩
      · have hinst : x.Installs (c []) :=
          ⟨hdest, fun _ => hmove, hinstall, fun hlink => by rw [hlink] at hex; cases hex⟩
        exact Act.wp_mono (dropBackup_spec hat.install) (fun _ d' hd => ⟨⟨hinst, hd.1⟩, hd.2⟩)
          fun _ d' hd => Or.inl ⟨⟨hinst, hd.1⟩, hd.2⟩
      · rw [hat.entry_tmp, hat.entry_dest, ht] at hbad
        cases hbad
    · rw [h.entry_dest, h.entry_backup, nothing, replaceable_none hex] at hbad
      cases hbad
  · rw [if_neg hex, Act.wp_bind]
    refine replace_spec (fun hinstall hrep => ?_) (fun _ hbad => ?_) fun hf =>
      Or.inr ⟨fun hi => hi.2.2.1 hf, Or.inl h⟩
    · rw [h.entry_tmp, h.entry_dest, ht] at hrep
      have hnone : c [] = none := by
        cases hc : c [] with
        | none => rfl
        | some e => rw [hc] at hrep; cases hrep
      have hinst : x.Installs (c []) :=
        ⟨hdest, fun hex' => absurd hex' hex, hinstall, by rw [hnone]; simp⟩
      have hnothing : x.FailsLate (nothing []) ↔ x.FailsLate (c []) := by rw [hnone, nothing]
      exact Act.wp_mono (dropBackup_spec h.install)
        (fun _ d' hd => ⟨⟨hinst, fun hlate => hd.1 (hnothing.2 hlate)⟩, hd.2⟩)
        fun _ d' hd => Or.inl ⟨⟨hinst, hnothing.1 hd.1⟩, hd.2⟩
    · refine Or.inr ⟨fun hi => ?_, Or.inl h⟩
      have hnone := eq_none_of_not_pathExists (by simpa using hex) hi.2.2.2
      rw [h.entry_tmp, h.entry_dest, ht, hnone] at hbad
      cases hbad

/-! ### The handler -/

theorem dropStale_spec (h : At x strays t b c d) :
    Act.wp x.dropStale (fun _ d' => ∃ b', At x strays t b' c d')
      (fun _ d' => ∃ b', At x strays t b' c d') d := by
  rw [dropStale, Act.wp_bind]
  refine exists_spec (fun _ => ?_) fun _ => ⟨_, h⟩
  rw [Act.wp_ite]
  exact ⟨fun _ => removeTree_spec (fun _ _ => ⟨_, h.removeBackup⟩) (fun _ _ => ⟨_, h⟩)
    fun left _ => h.thinBackup left, fun _ => (Act.wp_pure _).2 ⟨_, h⟩⟩

theorem dropTmp_spec (h : At x strays t b c d) :
    Act.wp x.dropTmp (fun _ d' => ∃ t', At x strays t' b c d')
      (fun _ d' => ∃ t', At x strays t' b c d') d := by
  rw [dropTmp, Act.wp_bind]
  refine exists_spec (fun _ => ?_) fun _ => ⟨_, h⟩
  rw [Act.wp_ite]
  exact ⟨fun _ => removeTree_spec (fun _ _ => ⟨_, h.removeTmp⟩) (fun _ _ => ⟨_, h⟩)
    fun left _ => h.thinTmp left, fun _ => (Act.wp_pure _).2 ⟨_, h⟩⟩

/-- Without a backup, or with something at the destination, the handler leaves the destination as
it is. -/
theorem recover_spec (hkeep : pathExists (b []) = false ∨ pathExists (c []) = true)
    (h : At x strays t b c d) :
    Act.wp x.recover (fun _ d' => ∃ t' b', At x strays t' b' c d')
      (fun _ d' => ∃ t' b', At x strays t' b' c d') d := by
  rw [recover, Act.wp_bind]
  refine Act.wp_mono (dropTmp_spec h) (fun _ d₁ h₁ => ?_) fun _ d₁ ⟨t', h₁⟩ => ⟨t', b, h₁⟩
  obtain ⟨t', h₁⟩ := h₁
  have hstale : Act.wp x.dropStale (fun _ d' => ∃ t' b', At x strays t' b' c d')
      (fun _ d' => ∃ t' b', At x strays t' b' c d') d₁ :=
    Act.wp_mono (dropStale_spec h₁) (fun _ _ hd => ⟨_, hd⟩) fun _ _ hd => ⟨_, hd⟩
  rw [putBack, Act.wp_bind]
  refine exists_spec (fun _ => ?_) fun _ => ⟨_, _, h₁⟩
  rw [h₁.entry_backup]
  by_cases hex : pathExists (b []) = true
  · have hdest := hkeep.resolve_left (by simp [hex])
    rw [if_pos hex, Act.wp_bind]
    refine exists_spec (fun _ => ?_) fun _ => ⟨_, _, h₁⟩
    rw [h₁.entry_dest, if_pos hdest]
    exact hstale
  · rw [if_neg hex]
    exact hstale

/-- When no call of the handler fails, it puts the backup back where nothing lies. -/
theorem restore_spec (ht : t [] = some .folder) (hb : pathExists (b []) = true)
    (hfault : x.Fails .install) (h : At x strays t b nothing d) :
    Act.wp x.recover (fun _ d' => ∃ t' b', At x strays t' b' b d') (fun _ _ => False) d := by
  have hno : ∀ call, call ≠ .install → ¬ x.Fails call := fun call hne hf => hne (hf.eq hfault)
  rw [recover, Act.wp_bind, dropTmp, Act.wp_bind]
  refine exists_spec (fun _ => ?_) fun hf => hno _ (by decide) hf
  rw [h.entry_tmp, ht, if_pos (show pathExists (some Entry.folder) = true from rfl)]
  refine removeTree_spec (fun _ _ => ?_) (fun _ hbad => hbad (by rw [h.entry_tmp, ht]))
    fun _ hf => hno _ (by decide) hf
  rw [putBack, Act.wp_bind]
  refine exists_spec (fun _ => ?_) fun hf => hno _ (by decide) hf
  rw [h.removeTmp.entry_backup, if_pos hb, Act.wp_bind]
  refine exists_spec (fun _ => ?_) fun hf => hno _ (by decide) hf
  rw [h.removeTmp.entry_dest, nothing]
  refine replace_spec (fun _ _ => ⟨_, _, h.removeTmp.restore⟩) (fun _ hbad => ?_)
    fun hf => hno _ (by decide) hf
  rw [h.removeTmp.entry_backup, h.removeTmp.entry_dest, nothing, replaceable_none hb] at hbad
  cases hbad

/-! ### The whole call -/

/-- The bundle is read. -/
def Reads (x : Extraction) (H : Host) (m : ArtifactBundleManifest)
    (payloads : List (TreePath × List UInt8)) : Prop :=
  ¬ x.Fails .readBundle ∧ readBundle H x.bundle = .ok (m, payloads)

/-- The destination is replaced, and the call raises all the same. -/
def Overshoots (x : Extraction) (H : Host) (d : Disk) (m : ArtifactBundleManifest)
    (payloads : List (TreePath × List UInt8)) : Prop :=
  x.CanMakeTmp d ∧ x.Stageable H payloads m.files ∧ x.Installs (d.entry x.dest) ∧
    x.FailsLate (d.entry x.dest)

/-- The tree of the bundle is put in the place of the destination, and nothing goes wrong. -/
structure Completes (x : Extraction) (H : Host) (d : Disk) (m : ArtifactBundleManifest)
    (payloads : List (TreePath × List UInt8)) : Prop where
  makeTmp : x.CanMakeTmp d
  stages : x.Stageable H payloads m.files
  installs : x.Installs (d.entry x.dest)
  last : ¬ x.FailsLate (d.entry x.dest)

theorem Completes.not_overshoots {m : ArtifactBundleManifest} (h : x.Completes H d m payloads) :
    ¬ x.Overshoots H d m payloads := fun ho => h.last ho.2.2.2

/-- The root of a bundle's tree is a folder. -/
theorem bundleTree_root {m : ArtifactBundleManifest} (hreads : x.Reads H m payloads) :
    bundleTree (deliver payloads m.files) [] = some .folder := by
  rw [bundleTree_of_not_mem, if_pos (Or.inl rfl)]
  simp only [deliver, List.mem_map]
  rintro f ⟨e, he, rfl⟩
  exact (wellNamed_of_readBundle hreads.2).ne_nil e he

theorem run_spec {m : ArtifactBundleManifest} (hreads : x.Reads H m payloads)
    (h : At x False nothing nothing c d) :
    Act.wp (x.run H)
      (fun r d' => (r = m ∧ x.Completes H d m payloads) ∧
        ∃ b, At x (d.Makes x.refuses [] x.walked) nothing b
          (bundleTree (deliver payloads m.files)) d')
      (fun _ d' => ¬ x.Completes H d m payloads ∧
        (x.Overshoots H d m payloads ∧ (∃ b, At x (d.Makes x.refuses [] x.walked) nothing b
          (bundleTree (deliver payloads m.files)) d') ∨
        ¬ x.Overshoots H d m payloads ∧
          ((∃ t, At x (d.Makes x.refuses [] x.walked) t nothing c d') ∨
            (∃ t, t [] = some .folder ∧ At x (d.Makes x.refuses [] x.walked) t c nothing d') ∧
              pathExists (c []) = true ∧ x.Fails .install))) d := by
  have hdest : d.entry x.dest = c [] := h.entry_dest
  rw [run, Act.wp_bind]
  refine failing_spec (fun _ => ?_) fun f hf hc => absurd ⟨f, hf, hc⟩ hreads.1
  rw [Act.wp_bind, Act.wp_ofExcept, hreads.2]
  dsimp only
  rw [Act.wp_bind]
  refine Act.wp_mono (makeTmp_spec h) (fun _ d₁ h₁ => ?_)
    fun _ d₁ h₁ => ⟨fun hc => h₁.1 hc.makeTmp, Or.inr ⟨fun ho => h₁.1 ho.1, Or.inl h₁.2⟩⟩
  rw [Act.wp_bind]
  refine Act.wp_mono (stageAll_spec (wellNamed_of_readBundle hreads.2) h₁.2) (fun _ d₂ h₂ => ?_)
    fun _ d₂ h₂ => ⟨fun hc => h₂.1 hc.stages, Or.inr ⟨fun ho => h₂.1 ho.2.1, Or.inl h₂.2⟩⟩
  have hroot := bundleTree_root hreads
  rw [Act.wp_bind]
  refine Act.wp_mono (swap_spec hroot h₂.2) (fun _ d₃ h₃ => (Act.wp_pure _).2 ?_) fun _ d₃ h₃ => ?_
  · exact ⟨⟨rfl, h₁.1, h₂.1, hdest ▸ h₃.1.1, hdest ▸ h₃.1.2⟩, h₃.2⟩
  · rcases h₃ with ⟨hover, hd⟩ | ⟨hno, hd⟩
    · exact ⟨fun hc => hc.last (hdest ▸ hover.2), Or.inl ⟨⟨h₁.1, h₂.1, hdest.symm ▸ hover⟩, hd⟩⟩
    · refine ⟨fun hc => hno (hdest ▸ hc.installs),
        Or.inr ⟨fun ho => hno (hdest ▸ ho.2.2.1), ?_⟩⟩
      rcases hd with hd | ⟨hd, hex, hf⟩
      · exact Or.inl ⟨_, hd⟩
      · exact Or.inr ⟨⟨_, hroot, hd⟩, hex, hf⟩

/-- What the call leaves, when the bundle is read. -/
theorem extract_spec {m : ArtifactBundleManifest} (hreads : x.Reads H m payloads)
    (h : At x False nothing nothing c d) :
    Act.wp (x.extractArtifactBundle H)
      (fun r d' => (r = m ∧ x.Completes H d m payloads) ∧
        ∃ b, At x (d.Makes x.refuses [] x.walked) nothing b
          (bundleTree (deliver payloads m.files)) d')
      (fun _ d' => ¬ x.Completes H d m payloads ∧
        ∃ t b c', At x (d.Makes x.refuses [] x.walked) t b c' d' ∧
          (x.Overshoots H d m payloads ∧ c' = bundleTree (deliver payloads m.files) ∨
            ¬ x.Overshoots H d m payloads ∧ c' = c)) d := by
  have hroot : pathExists (bundleTree (deliver payloads m.files) []) = true := by
    rw [bundleTree_root hreads]
    rfl
  rw [extractArtifactBundle, Act.wp_catching]
  refine Act.wp_mono (run_spec hreads h) (fun _ _ hd => hd) fun e d₁ hd => ?_
  obtain ⟨hnot, hd⟩ := hd
  rw [if_pos rfl, Act.wp_bind]
  rcases hd with ⟨hover, b, h₁⟩ | ⟨hno, ⟨t, h₁⟩ | ⟨⟨t, ht, h₁⟩, hex, hfault⟩⟩
  · refine Act.wp_mono (recover_spec (Or.inr hroot) h₁) (fun _ d' hd => ?_) fun _ d' hd => ?_
    · obtain ⟨t', b', hd⟩ := hd
      exact (Act.wp_throw _).2 ⟨hnot, _, _, _, hd, Or.inl ⟨hover, rfl⟩⟩
    · obtain ⟨t', b', hd⟩ := hd
      exact ⟨hnot, _, _, _, hd, Or.inl ⟨hover, rfl⟩⟩
  · refine Act.wp_mono (recover_spec (Or.inl rfl) h₁) (fun _ d' hd => ?_) fun _ d' hd => ?_
    · obtain ⟨t', b', hd⟩ := hd
      exact (Act.wp_throw _).2 ⟨hnot, _, _, _, hd, Or.inr ⟨hno, rfl⟩⟩
    · obtain ⟨t', b', hd⟩ := hd
      exact ⟨hnot, _, _, _, hd, Or.inr ⟨hno, rfl⟩⟩
  · refine Act.wp_mono (restore_spec ht hex hfault h₁) (fun _ d' hd => ?_) fun _ _ hd => hd.elim
    obtain ⟨t', b', hd⟩ := hd
    exact (Act.wp_throw _).2 ⟨hnot, _, _, _, hd, Or.inr ⟨hno, rfl⟩⟩

/-- A bundle that is not read changes nothing at the destination. -/
theorem extract_of_not_reads (hreads : ∀ m payloads, ¬ x.Reads H m payloads)
    (h : At x False nothing nothing c d) :
    Act.wp (x.extractArtifactBundle H) (fun _ _ => False)
      (fun _ d' => ∃ t b, At x False t b c d') d := by
  have hrun : Act.wp (x.run H) (fun _ _ => False) (fun _ d' => d' = d) d := by
    rw [run, Act.wp_bind]
    refine failing_spec (fun hok => ?_) fun f hf hc => (Act.wp_pure _).2 rfl
    rw [Act.wp_bind, Act.wp_ofExcept]
    cases hread : readBundle H x.bundle with
    | error e => rfl
    | ok r => exact absurd ⟨hok, hread⟩ (hreads r.1 r.2)
  rw [extractArtifactBundle, Act.wp_catching]
  refine Act.wp_mono hrun (fun _ _ hd => hd) fun e d₁ hd => ?_
  rw [if_pos rfl, hd, Act.wp_bind]
  exact Act.wp_mono (recover_spec (Or.inl rfl) h) (fun _ d' hd => (Act.wp_throw _).2 hd)
    fun _ d' hd => hd

/-- What an extraction promises: when it raises, what lies at the destination is what lay there
before, and in every case nothing is written but the destination and its two temporary siblings. -/
def Safe (x : Extraction) (H : Host) (entry : TreePath → Option Entry) : Prop :=
  Act.wp (x.extractArtifactBundle H)
    (fun _ d' => ∀ p ∈ d'.written, x.InArea p)
    (fun _ d' => (∀ s, d'.entry (x.dest ++ s) = entry (x.dest ++ s)) ∧
      ∀ p ∈ d'.written, x.InArea p) { entry }

/-- The names of the temporary siblings are new. -/
def Fresh (x : Extraction) (entry : TreePath → Option Entry) : Prop :=
  ∀ s, entry (x.tmp ++ s) = none ∧ entry (x.backup ++ s) = none

section

variable {entry : TreePath → Option Entry}

theorem keeps_failing {call : FsCall} {partly : Fault → Files Unit}
    (hpartly : ∀ f, Keeps (Disk.Logs entry) (partly f)) :
    Keeps (Disk.Logs entry) (x.failing call partly) :=
  fun d hd => failing_spec (fun _ => hd) fun f _ _ =>
    Act.wp_mono (hpartly f d hd) (fun _ _ h => h) fun _ _ h => h

theorem keeps_exists (call : FsCall) (p : TreePath) :
    Keeps (Disk.Logs entry) (x.exists? call p) := fun _ hd => exists_spec (fun _ => hd) fun _ => hd

theorem keeps_replace (call : FsCall) (src dst : TreePath) :
    Keeps (Disk.Logs entry) (x.replace call src dst) := fun _ hd =>
  replace_spec (fun _ _ => hd.move src dst) (fun _ _ => hd) fun _ => hd

theorem keeps_removeTree (call : FsCall) (p : TreePath) :
    Keeps (Disk.Logs entry) (x.removeTree call p) := fun _ hd =>
  removeTree_spec (fun _ _ => hd.remove p) (fun _ _ => hd) fun left _ => hd.thin p left

theorem keeps_removeIf (call call' : FsCall) (p : TreePath) :
    Keeps (Disk.Logs entry) (do if ← x.exists? call p then x.removeTree call' p) :=
  (keeps_exists call p).bind fun _ => Keeps.ite (fun _ => keeps_removeTree _ _)
    fun _ => Keeps.pure _

theorem keeps_makeTmp : Keeps (Disk.Logs entry) x.makeTmp := by
  refine (keeps_failing fun f => keeps_makeDirs _ _ _).bind fun _ => ?_
  refine (keeps_makeDirs _ _ _).bind fun _ => Keeps.get.bind fun d₀ => ?_
  refine Keeps.ite (fun _ => (Keeps.throw _).bind fun _ => ?_) fun _ => ?_ <;>
  · intro d hd
    refine wp_makeDir.2 ?_
    split
    · split_ifs
      · exact hd
      · exact hd.put _ _
    · exact hd
    · exact hd

theorem keeps_writeBytes (rel : TreePath) (payload : List UInt8) :
    Keeps (Disk.Logs entry) (x.writeBytes rel payload) := by
  refine Keeps.bind (keeps_failing fun f => ?_) fun _ d hd => ?_
  · cases f.data with
    | none => exact Keeps.pure _
    | some data => exact Keeps.modify fun _ hd => hd.put _ _
  · rw [Act.wp_bind, Act.wp_get]
    split
    · exact (Act.wp_throw _).2 hd
    · exact (Act.wp_set _).2 (hd.put _ _)
    · rw [Act.wp_ite]
      exact ⟨fun _ => (Act.wp_throw _).2 hd, fun _ => (Act.wp_set _).2 (hd.put _ _)⟩

theorem keeps_run : Keeps (Disk.Logs entry) (x.run H) := by
  refine (keeps_failing fun _ => Keeps.pure _).bind fun _ => (Keeps.ofExcept _).bind fun r => ?_
  refine keeps_makeTmp.bind fun _ => (Keeps.forM fun e _ => ?_).bind fun _ => ?_
  · refine (Keeps.ofExcept _).bind fun payload => ?_
    refine (keeps_failing fun _ => keeps_makeDirs _ _ _).bind fun _ => ?_
    exact (keeps_makeDirs _ _ _).bind fun _ => keeps_writeBytes _ _
  · refine Keeps.bind ((keeps_exists _ _).bind fun _ => ?_) fun _ => Keeps.pure _
    have hrest : Keeps (Disk.Logs entry) (do
        x.replace .install x.tmp x.dest
        x.dropBackup) := (keeps_replace _ _ _).bind fun _ => keeps_removeIf _ _ _
    exact Keeps.ite (fun _ => (keeps_replace _ _ _).bind fun _ => hrest) fun _ => hrest

/-- **What lies outside the written paths is as it was**, when the call returns and when it
raises. -/
theorem extract_logs : Keeps (Disk.Logs entry) (x.extractArtifactBundle H) := by
  refine Keeps.catching keeps_run fun e => Keeps.bind ?_ fun _ => Keeps.throw _
  refine (keeps_removeIf _ _ _).bind fun _ => (keeps_exists _ _).bind fun _ => ?_
  refine Keeps.ite (fun _ => (keeps_exists _ _).bind fun _ => ?_) fun _ => keeps_removeIf _ _ _
  exact Keeps.ite (fun _ => keeps_removeIf _ _ _) fun _ => keeps_replace _ _ _

end

/-! ### Runs -/

/-- A bundle without artifacts. -/
def emptyBundle : List Member :=
  [{ name := "manifest.json"
     kind := .file
     content := .ok (some (utf8
      "\x7b\"files\":[],\"schema\":\"shiroe.artifact-bundle/v1\"\x7d".toList)) }]

/-- The extraction of the bundle without artifacts to `/srv/out`. -/
def toOut (fault : Option Fault) : Extraction where
  bundle := .ok emptyBundle
  parent := ["srv"]
  name := "out"
  tmpHex := "5f"
  oldHex := "60"
  fault := fault

/-- A file system whose `/srv/out` is a folder with one file. -/
def outFolder : TreePath → Option Entry
  | ["srv"] => some .folder
  | ["srv", "out"] => some .folder
  | ["srv", "out", "old.txt"] => some (.file [111, 108, 100])
  | _ => none

/-- A file system whose `/srv/out` is a file. -/
def outFile : TreePath → Option Entry
  | ["srv"] => some .folder
  | ["srv", "out"] => some (.file [111, 108, 100])
  | _ => none

theorem fresh_outFolder : (toOut none).Fresh outFolder := by
  intro s
  constructor
  · change outFolder ("srv" :: ".out.tmp.5f" :: s) = none
    cases s <;> rfl
  · change outFolder ("srv" :: ".out.old.60" :: s) = none
    cases s <;> rfl

/-- What lies at a path when the call has raised. -/
def leftAt (x : Extraction) (H : Host) (entry : TreePath → Option Entry) (p : TreePath) :
    Option (Option Entry) :=
  match x.extractArtifactBundle H { entry } with
  | .ok _ _ => none
  | .error _ d' => some (d'.entry p)

/-- An extraction that raises with another entry at the destination is not safe. -/
theorem not_safe_of_changed {entry : TreePath → Option Entry} (s : TreePath) (new : Option Entry)
    (h : x.leftAt H entry (x.dest ++ s) = some new) (hne : new ≠ entry (x.dest ++ s)) :
    ¬ x.Safe H entry := by
  intro hsafe
  unfold Safe Act.wp at hsafe
  unfold leftAt at h
  cases hx : x.extractArtifactBundle H { entry } with
  | ok r d' =>
    rw [hx] at h
    cases h
  | error e d' =>
    rw [hx] at h hsafe
    cases h
    exact hne (hsafe.1 s)

/-- A bundle with one file `docs/a` that holds the byte 2. -/
def fileBundle : List Member :=
  [{ name := "manifest.json"
     kind := .file
     content := .ok (some (utf8 ((Json.mkObj [("schema", .str artifactBundleSchema), ("files", .arr
       [(FileEntry.mk ["docs", "a"] (digestBytes (Host.quick id) [2]) (.int 1)).toJson])]).dumps
         false))) },
    { name := "files/docs/a", kind := .file, content := .ok (some [2]) }]

/-- Its extraction to `/srv/out`, of which the last rename fails. -/
def installFails : Extraction :=
  { toOut (some { call := .install }) with bundle := .ok fileBundle }

/-- The bundle is read, and nothing is left beside the old folder. -/
theorem installFails_run :
    (readBundle (Host.quick id) (.ok fileBundle)).toOption.map (·.2) = some [(["docs", "a"], [2])] ∧
      [["srv", "out", "old.txt"], ["srv", "out", "docs", "a"], ["srv", ".out.tmp.5f", "docs", "a"],
        ["srv", ".out.old.60"]].map (installFails.leftAt (Host.quick id) outFolder) =
          [some (some (.file [111, 108, 100])), some none, some none, some none] := by
  decide +kernel

end Extraction

end Shiroe
