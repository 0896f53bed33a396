import FormulaDrawing.Disk.Tree
import FormulaDrawing.Proofs.Lookup
import FormulaDrawing.Proofs.Text.Part

/-! What a name without slashes leads to from a folder: something that lies directly in it. Writing a file
there and making the folder before change nothing else that is on the disk. -/

namespace FormulaDrawing

namespace Disk

open Text

/-- A name of its own: it has no slash and leads neither nowhere nor upwards. -/
structure IsChild (file : String) : Prop where
  slash : '/' ∉ file.toList
  ne_empty : file ≠ ""
  ne_dot : file ≠ "."
  ne_dots : file ≠ ".."

section Path

variable {root file : String}

theorem names_append_slash (a b : String) : names (a ++ "/" ++ b) = names a ++ names b := by
  have hlist : (a ++ "/" ++ b).toList = a.toList ++ '/' :: b.toList := by simp
  rw [names, hlist, pieces_append_cons, List.map_append, List.filter_append]
  rfl

theorem IsChild.names_eq (h : IsChild file) : names file = [file] := by
  rw [names, pieces_of_not_mem h.slash]
  simp [h.ne_empty, h.ne_dot]

theorem IsChild.not_isAbsolute (h : IsChild file) : isAbsolute file = false := by
  rw [isAbsolute, beq_eq_false_iff_ne]
  exact fun hhead => h.slash (List.mem_of_mem_head? hhead)

theorem IsChild.join_eq (h : IsChild file) (hroot : root ≠ "") :
    ∃ front, (root = front ++ "/" ∨ root = front) ∧ join root file = front ++ "/" ++ file := by
  rw [join, h.not_isAbsolute]
  by_cases hlast : root.toList.getLast? = some '/'
  · obtain ⟨front, hfront⟩ := List.getLast?_eq_some_iff.1 hlast
    have hslash : root = String.ofList front ++ "/" := by
      rw [← String.toList_inj, hfront]
      simp
    refine ⟨String.ofList front, .inl hslash, ?_⟩
    rw [if_pos hlast, ← hslash]
    simp [hroot]
  · refine ⟨root, .inr rfl, ?_⟩
    rw [if_neg hlast]
    simp [hroot]

theorem IsChild.names_join (h : IsChild file) (root : String) :
    names (join root file) = names root ++ [file] := by
  by_cases hroot : root = ""
  · subst hroot
    rw [join, if_pos (by simp), h.names_eq]
    rfl
  · obtain ⟨front, hfront, hjoin⟩ := h.join_eq hroot
    rw [hjoin, names_append_slash, h.names_eq]
    rcases hfront with rfl | rfl
    · have hnil := names_append_slash front ""
      rw [String.append_empty] at hnil
      rw [hnil]
      simp [show names "" = [] from rfl]
    · rfl

theorem IsChild.isAbsolute_join (h : IsChild file) (root : String) :
    isAbsolute (join root file) = isAbsolute root := by
  by_cases hroot : root = ""
  · subst hroot
    rw [join, if_pos (by simp), h.not_isAbsolute]
    rfl
  · obtain ⟨front, hfront, hjoin⟩ := h.join_eq hroot
    rw [hjoin, isAbsolute, isAbsolute]
    rcases hfront with rfl | rfl
    · cases hlist : front.toList <;> simp [hlist]
    · obtain ⟨c, cs, hlist⟩ : ∃ c cs, root.toList = c :: cs :=
        List.exists_cons_of_ne_nil fun hnil => hroot (String.toList_eq_nil_iff.1 hnil)
      simp [hlist]

theorem IsChild.join_ne_empty (h : IsChild file) (root : String) : join root file ≠ "" := by
  intro hjoin
  have hnames := h.names_join root
  rw [hjoin] at hnames
  exact List.append_ne_nil_of_right_ne_nil _ (List.cons_ne_nil file []) hnames.symm

end Path

namespace Tree

variable {root n path : String} {t t' t'' : Tree} {place p q ns : List String} {i : Item}
  {content : ByteArray}

section Items

theorem item?_setItem (t : Tree) (place q : List String) (i : Item) :
    (t.setItem place i).item? q =
      if q.isPrefixOf t.here then some .folder else if q = place then some i else t.items.lookup q := by
  have hrest : (t.items.filter (·.1 != place)).lookup q =
      if q = place then none else t.items.lookup q := by
    rw [lookup_filter (· != place)]
    by_cases hq : q = place <;> simp [hq]
  unfold setItem item?
  dsimp only
  rw [List.lookup_append, hrest]
  split
  · rfl
  · by_cases hq : q = place
    · simp [hq]
    · have hb : (q == place) = false := by simpa using hq
      simp [List.lookup_cons, hq, hb]

theorem item?_setItem_self (h : t.item? place ≠ some .folder) (i : Item) :
    (t.setItem place i).item? place = some i := by
  rw [item?_setItem, if_neg, if_pos rfl]
  exact fun hpre => h (if_pos hpre)

theorem item?_setItem_of_ne (h : q ≠ place) (i : Item) :
    (t.setItem place i).item? q = t.item? q := by
  rw [item?_setItem, if_neg h, item?]

end Items

section Keeps

/-- Folders stay where they are. -/
structure Keeps (t t' : Tree) : Prop where
  here : t'.here = t.here
  folders : ∀ q, t.item? q = some .folder → t'.item? q = some .folder

theorem Keeps.refl (t : Tree) : t.Keeps t := ⟨rfl, fun _ => id⟩

theorem Keeps.trans (h : t.Keeps t') (h' : t'.Keeps t'') : t.Keeps t'' :=
  ⟨h'.here.trans h.here, fun q => h'.folders q ∘ h.folders q⟩

theorem keeps_setItem (h : t.item? place ≠ some .folder) (i : Item) : t.Keeps (t.setItem place i) where
  here := rfl
  folders := fun q hq => by
    rw [item?_setItem_of_ne]
    · exact hq
    · rintro rfl
      exact h hq

theorem follow_cons (t : Tree) (place : List String) (n : String) (ns : List String) :
    t.follow place (n :: ns) = t.follow place [n] >>= fun p => t.follow p ns := by
  rw [follow, follow]
  cases t.item? place with
  | none => rfl
  | some i =>
    cases i with
    | file => rfl
    | folder => cases enter place n <;> rfl

theorem follow_append (t : Tree) (place ns ms : List String) :
    t.follow place (ns ++ ms) = t.follow place ns >>= fun p => t.follow p ms := by
  induction ns generalizing place with
  | nil => rfl
  | cons n ns ih =>
    rw [List.cons_append, follow_cons, follow_cons t place n ns]
    cases t.follow place [n] with
    | error => rfl
    | ok p => exact ih p

theorem follow_singleton_eq_ok (h : t.follow place [n] = .ok p) :
    t.item? place = some .folder ∧ enter place n = .ok p := by
  rw [follow] at h
  split at h
  next hi =>
    refine ⟨hi, ?_⟩
    cases he : enter place n with
    | error => rw [he] at h; cases h
    | ok q => rw [he] at h; exact h
  next => cases h
  next => cases h

theorem follow_singleton (h : t.item? place = some .folder) (n : String) :
    t.follow place [n] = enter place n := by
  rw [follow, h]
  cases enter place n <;> rfl

theorem Keeps.follow (h : t.Keeps t') (hp : t.follow place ns = .ok p) :
    t'.follow place ns = .ok p := by
  induction ns generalizing place with
  | nil => exact hp
  | cons n ns ih =>
    rw [follow_cons] at hp ⊢
    cases hn : t.follow place [n] with
    | error => rw [hn] at hp; cases hp
    | ok q =>
      rw [hn] at hp
      obtain ⟨hfolder, henter⟩ := follow_singleton_eq_ok hn
      rw [follow_singleton (h.folders place hfolder), henter]
      exact ih hp

end Keeps

section Changes

/-- Folders are made where nothing was, and besides only files of these names are written, directly in the
folder that the root leads to. -/
structure Confines (root : String) (files : List String) (t t' : Tree) : Prop extends t.Keeps t' where
  changed : ∀ q, t'.item? q = t.item? q ∨ (t.item? q = none ∧ t'.item? q = some .folder) ∨
    ∃ p, t'.follow (t'.base root) (names root) = .ok p ∧ t'.item? p = some .folder ∧
      ∃ file ∈ files, q = p ++ [file]

theorem Confines.refl (root : String) (files : List String) (t : Tree) : Confines root files t t :=
  ⟨.refl t, fun _ => .inl rfl⟩

theorem base_eq (h : t'.here = t.here) (path : String) : t'.base path = t.base path := by
  rw [base, base, h]

theorem Confines.trans {files : List String} (h : Confines root files t t')
    (h' : Confines root files t' t'') : Confines root files t t'' where
  toKeeps := h.toKeeps.trans h'.toKeeps
  changed := fun q => by
    rcases h'.changed q with hq' | ⟨hnone, hfolder⟩ | hfile
    · rcases h.changed q with hq | ⟨hnone, hfolder⟩ | ⟨p, hp, hfolder, hfile⟩
      · exact .inl (hq'.trans hq)
      · exact .inr (.inl ⟨hnone, hq'.trans hfolder⟩)
      · refine .inr (.inr ⟨p, ?_, h'.folders p hfolder, hfile⟩)
        rw [base_eq h'.here]
        exact h'.follow hp
    · rcases h.changed q with hq | ⟨-, hfolder'⟩ | ⟨p, hp, hfolder', hfile⟩
      · exact .inr (.inl ⟨hq ▸ hnone, hfolder⟩)
      · rw [hnone] at hfolder'
        cases hfolder'
      · refine .inr (.inr ⟨p, ?_, h'.folders p hfolder', hfile⟩)
        rw [base_eq h'.here]
        exact h'.follow hp
    · exact .inr (.inr hfile)

theorem confines_makeFolders (root : String) (files : List String)
    (h : t.makeFolders place ns = .ok t') : Confines root files t t' := by
  induction ns generalizing t place with
  | nil =>
    cases h
    exact .refl root files _
  | cons n ns ih =>
    rw [makeFolders] at h
    cases henter : enter place n with
    | error => rw [henter] at h; cases h
    | ok next =>
      rw [henter] at h
      dsimp only [bind, Except.bind] at h
      split at h
      next => exact ih h
      next => cases h
      next hnone =>
        refine Confines.trans ?_ (ih h)
        refine ⟨keeps_setItem (by simp [hnone]) _, fun q => ?_⟩
        by_cases hq : q = next
        · subst hq
          exact .inr (.inl ⟨hnone, item?_setItem_self (by simp [hnone]) _⟩)
        · exact .inl (item?_setItem_of_ne hq _)

theorem writeFile_join_eq_ok {file : String} (hfile : IsChild file)
    (h : writeFile (join root file) content t = .ok t') :
    ∃ p, t.follow (t.base root) (names root) = .ok p ∧ t.item? p = some .folder ∧
      t.item? (p ++ [file]) ≠ some .folder ∧ t' = t.setItem (p ++ [file]) (.file content) := by
  rw [writeFile] at h
  cases hplace : t.locate (join root file) with
  | error => rw [hplace] at h; cases h
  | ok place =>
    rw [hplace] at h
    dsimp only [bind, Except.bind] at h
    split at h
    next => cases h
    next hne =>
    split at h
    next => cases h
    next =>
    cases h
    rw [locate, if_neg (hfile.join_ne_empty root), base, hfile.isAbsolute_join, ← base,
      hfile.names_join, follow_append] at hplace
    cases hp : t.follow (t.base root) (names root) with
    | error => rw [hp] at hplace; cases hplace
    | ok p =>
      rw [hp] at hplace
      obtain ⟨hfolder, henter⟩ := follow_singleton_eq_ok hplace
      rw [enter, if_neg hfile.ne_dots] at henter
      split at henter
      next => cases henter
      next =>
      cases henter
      exact ⟨p, rfl, hfolder, hne, rfl⟩

theorem confines_writeFile {file : String} {files : List String} (hfile : IsChild file)
    (hmem : file ∈ files) (h : writeFile (join root file) content t = .ok t') :
    Confines root files t t' := by
  obtain ⟨p, hp, hfolder, hne, rfl⟩ := writeFile_join_eq_ok hfile h
  have hkeeps : t.Keeps (t.setItem (p ++ [file]) (.file content)) := keeps_setItem hne _
  refine ⟨hkeeps, fun q => ?_⟩
  by_cases hq : q = p ++ [file]
  · exact .inr (.inr ⟨p, hkeeps.follow hp, hkeeps.folders p hfolder, file, hmem, hq⟩)
  · exact .inl (item?_setItem_of_ne hq _)

end Changes

end Tree

end Disk

end FormulaDrawing
