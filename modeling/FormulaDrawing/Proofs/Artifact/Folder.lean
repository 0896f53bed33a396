import FormulaDrawing.Proofs.Artifact.Name
import FormulaDrawing.Proofs.Disk.Child

/-! Where a folder keeps what it stores. The parts of a valid name have no separators and no two dots, and
neither come about where the parts meet; so the files of an artifact lie directly in the folder. -/

namespace FormulaDrawing.Artifact

open Text

variable {context n file root : String} {document image : ByteArray}

section Names

/-- Without separators and without two dots next to each other. -/
structure Plain (s : List Char) : Prop where
  separator : ∀ c ∈ s, isSeparator c = false
  dots : ¬ ['.', '.'] <:+: s

theorem Plain.append {s t : List Char} (hs : Plain s) (ht : Plain t)
    (h : s.getLast? ≠ some '.' ∨ t.head? ≠ some '.') : Plain (s ++ t) where
  separator := fun c hc => (List.mem_append.1 hc).elim (hs.separator c) (ht.separator c)
  dots := fun hdots => by
    rcases infix_append_cases hdots with hdots | hdots | ⟨a, b, hab, ⟨front, rfl⟩, back, rfl⟩
    · exact hs.dots hdots
    · exact ht.dots hdots
    · rcases List.append_eq_cons_iff.1 hab.symm with ⟨rfl, rfl⟩ | ⟨a, rfl, hrest⟩
      · exact ht.dots (List.prefix_append _ back).isInfix
      rcases List.append_eq_cons_iff.1 hrest.symm with ⟨rfl, rfl⟩ | ⟨a, rfl, hnil⟩
      · simp at h
      · obtain ⟨rfl, rfl⟩ := List.append_eq_nil_iff.1 hnil.symm
        exact hs.dots (List.suffix_append front _).isInfix

theorem plain_iff {s : List Char} :
    Plain s ↔ s.all (fun c => !isSeparator c) = true ∧ Text.contains ['.', '.'] s = false := by
  rw [← Bool.not_eq_true, contains_eq_true_iff]
  exact ⟨fun h => ⟨by simpa using h.separator, h.dots⟩, fun h => ⟨by simpa using h.1, h.2⟩⟩

theorem plain_of_checkId {id : String} (h : checkId id = .ok ()) : Plain id.toList :=
  ⟨(checkId_eq_ok_iff.1 h).2.1, (checkId_eq_ok_iff.1 h).2.2.1⟩

theorem plain_name {template : String} (ht : checkId template = .ok ()) (hc : checkId context = .ok ()) :
    Plain (name template context).toList := by
  have hopening : Plain opening := plain_iff.2 (by decide)
  have hmark : Plain contextMark := plain_iff.2 (by decide)
  have hending : Plain ending := plain_iff.2 (by decide)
  rw [name, String.toList_ofList]
  refine Plain.append (Plain.append (Plain.append (Plain.append hopening (plain_of_checkId ht) ?_)
    hmark ?_) (plain_of_checkId hc) ?_) hending ?_
  · exact .inl (by decide)
  · exact .inr (by decide)
  · exact .inl (by simp [contextMark])
  · exact .inr (by decide)

theorem head?_name (template context : String) : (name template context).toList.head? = some 'b' := by
  have hopening : opening.head? = some 'b' := by decide
  rw [name, String.toList_ofList]
  simp only [List.append_assoc]
  rw [List.head?_append, hopening, Option.some_or]

theorem getLast?_name (template context : String) : (name template context).toList.getLast? = some 'd' := by
  have hending : ending.getLast? = some 'd' := by decide
  rw [name, String.toList_ofList, List.getLast?_append, hending, Option.some_or]

end Names

section Files

variable (h : check context n = .ok ()) (hfile : file ∈ [documentFile n, imageFile n])
include h hfile

theorem plain_of_check : Plain file.toList := by
  obtain ⟨hc, template, hparts, ht⟩ := check_eq_ok_iff.1 h
  have hname : Plain n.toList := eq_name_of_parts? hparts ▸ plain_name ht hc
  have hsvg : Plain ".svg".toList := plain_iff.2 (by decide)
  have hpng : Plain ".png".toList := plain_iff.2 (by decide)
  have hlast : n.toList.getLast? ≠ some '.' := by
    rw [eq_name_of_parts? hparts, getLast?_name]
    decide
  rcases List.mem_pair.1 hfile with rfl | rfl
  · rw [documentFile, String.toList_append]
    exact hname.append hsvg (.inl hlast)
  · rw [imageFile, String.toList_append]
    exact hname.append hpng (.inl hlast)

theorem isChild_of_check : Disk.IsChild file := by
  obtain ⟨-, template, hparts, -⟩ := check_eq_ok_iff.1 h
  have hhead : file.toList.head? = some 'b' := by
    rw [eq_name_of_parts? hparts] at hfile
    rcases List.mem_pair.1 hfile with rfl | rfl
    · rw [documentFile, String.toList_append, List.head?_append, head?_name, Option.some_or]
    · rw [imageFile, String.toList_append, List.head?_append, head?_name, Option.some_or]
  refine ⟨fun hslash => ?_, ?_, ?_, ?_⟩
  · exact absurd ((plain_of_check h hfile).separator '/' hslash) (by decide)
  all_goals rintro rfl; exact absurd hhead (by decide)

end Files

section Runs

variable {α β : Type} {action : ExceptT Failure (StateM Disk.Tree) α}
  {next : α → ExceptT Failure (StateM Disk.Tree) β} {failure : String → Failure}
  {change : Disk.Tree → Except Disk.Fault Disk.Tree} {t t' : Disk.Tree} {b : β} {files : List String}

theorem run_onFault_change (failure : String → Failure)
    (change : Disk.Tree → Except Disk.Fault Disk.Tree) (t : Disk.Tree) :
    (Folder.onFault failure (Disk.Tree.change change)).run.run t = match change t with
      | .ok t' => (.ok (), t')
      | .error fault => (.error (failure fault.message), t) := by
  rw [Folder.onFault, ExceptT.run_mk, StateT.run_bind, StateT.run, Disk.Tree.change]
  cases change t <;> rfl

theorem run_bind_eq_ok (h : (action >>= next).run.run t = (.ok b, t')) :
    ∃ a between, action.run.run t = (.ok a, between) ∧ (next a).run.run between = (.ok b, t') := by
  rw [run_bind] at h
  split at h
  next a between ha => exact ⟨a, between, ha, h⟩
  next => cases h

theorem run_onFault_change_eq_ok {u : Unit}
    (h : (Folder.onFault failure (Disk.Tree.change change)).run.run t = (.ok u, t')) :
    change t = .ok t' := by
  rw [run_onFault_change] at h
  split at h
  next heq =>
    cases h
    exact heq
  next => cases h

/-- Whatever comes of it, nothing changes but these files of the folder. -/
def Stays (root : String) (files : List String) (action : ExceptT Failure (StateM Disk.Tree) α) : Prop :=
  ∀ t, Disk.Tree.Confines root files t (action.run.run t).2

theorem stays_of_run_eq {r : Except Failure α} (h : ∀ t, action.run.run t = (r, t)) :
    Stays root files action := fun t => by
  rw [h t]
  exact .refl root files t

theorem Stays.bind (h : Stays root files action) (hn : ∀ a, Stays root files (next a)) :
    Stays root files (action >>= next) := fun t => by
  have ht := h t
  rw [run_bind]
  split
  next a t' ha =>
    rw [ha] at ht
    exact ht.trans (hn a t')
  next failure t' hf =>
    rw [hf] at ht
    exact ht

theorem stays_onFault (h : ∀ t t', change t = .ok t' → Disk.Tree.Confines root files t t') :
    Stays root files (Folder.onFault failure (Disk.Tree.change change)) := fun t => by
  rw [run_onFault_change]
  split
  next t' ht => exact h t t' ht
  next => exact .refl root files t

end Runs

section Writing

variable {t t' : Disk.Tree} {location : Location}

theorem stays_writeFile {files : List String} (hfile : Disk.IsChild file) (hmem : file ∈ files)
    (content : ByteArray) : Stays root files (Folder.writeFile Disk.Tree.disk root file content) :=
  (stays_onFault fun _ _ => Disk.Tree.confines_writeFile hfile hmem).bind fun _ =>
    stays_of_run_eq fun _ => rfl

theorem put_of_check_eq_error {m : Type → Type} [Monad m] [LawfulMonad m] {failure : Failure}
    (h : check context n = .error failure) (disk : Disk m) (root : String) (document image : ByteArray) :
    (Folder.store disk root).put context n document image = pure (.error failure) := by
  change (Folder.put disk root context n document image).run = _
  rw [Folder.put, h, ExceptT.run_bind, ExceptT.run_mk, pure_bind]

theorem stays_put (root context n : String) (document image : ByteArray) :
    Stays root [documentFile n, imageFile n] (Folder.put Disk.Tree.disk root context n document image) := by
  cases h : check context n with
  | error failure =>
    exact stays_of_run_eq fun t => congrFun (put_of_check_eq_error h Disk.Tree.disk root document image) t
  | ok =>
    have hchild : ∀ file ∈ [documentFile n, imageFile n], Disk.IsChild file := fun _ => isChild_of_check h
    have hcheck : Stays root [documentFile n, imageFile n]
        (ExceptT.mk (pure (check context n)) : ExceptT Failure (StateM Disk.Tree) Unit) :=
      stays_of_run_eq fun _ => rfl
    refine hcheck.bind fun _ => ?_
    refine (stays_onFault fun _ _ => Disk.Tree.confines_makeFolders root _).bind fun _ => ?_
    refine (stays_writeFile (hchild _ ?_) ?_ document).bind fun _ => ?_
    · exact List.mem_cons_self
    · exact List.mem_cons_self
    refine (stays_writeFile (hchild _ ?_) ?_ image).bind fun _ => ?_
    · exact List.mem_cons_of_mem _ List.mem_cons_self
    · exact List.mem_cons_of_mem _ List.mem_cons_self
    exact stays_of_run_eq fun _ => rfl

theorem writeFile_eq_ok {path : String} {content : ByteArray}
    (h : (Folder.writeFile Disk.Tree.disk root file content).run.run t = (.ok path, t')) :
    path = Disk.join root file ∧ Disk.Tree.writeFile (Disk.join root file) content t = .ok t' := by
  obtain ⟨_, between, hwrite, hpath⟩ := run_bind_eq_ok h
  cases hpath
  exact ⟨rfl, run_onFault_change_eq_ok hwrite⟩

theorem put_eq_ok
    (h : (Folder.put Disk.Tree.disk root context n document image).run.run t = (.ok location, t')) :
    check context n = .ok () ∧
    location = ⟨context, Disk.join root (documentFile n), Disk.join root (imageFile n)⟩ ∧
    ∃ p, t'.follow (t'.base root) (Disk.names root) = .ok p ∧ t'.item? p = some .folder ∧
      t'.item? (p ++ [documentFile n]) = some (.file document) ∧
      t'.item? (p ++ [imageFile n]) = some (.file image) := by
  obtain ⟨_, t₁, hcheck, h⟩ := run_bind_eq_ok h
  have hcheck : check context n = .ok () := congrArg Prod.fst hcheck
  obtain ⟨_, t₂, -, h⟩ := run_bind_eq_ok h
  obtain ⟨_, t₃, hfirst, h⟩ := run_bind_eq_ok h
  obtain ⟨_, t₄, hsecond, h⟩ := run_bind_eq_ok h
  obtain ⟨rfl, hdocument⟩ := writeFile_eq_ok hfirst
  obtain ⟨rfl, himage⟩ := writeFile_eq_ok hsecond
  cases h
  have hchild : ∀ file ∈ [documentFile n, imageFile n], Disk.IsChild file :=
    fun _ => isChild_of_check hcheck
  obtain ⟨p, hp, hfolder, hne, rfl⟩ :=
    Disk.Tree.writeFile_join_eq_ok (hchild _ List.mem_cons_self) hdocument
  obtain ⟨q, hq, -, hne', rfl⟩ :=
    Disk.Tree.writeFile_join_eq_ok (hchild _ (List.mem_cons_of_mem _ List.mem_cons_self)) himage
  have hkeeps := Disk.Tree.keeps_setItem hne (.file document)
  have hkeeps' := Disk.Tree.keeps_setItem hne' (.file image)
  obtain rfl : p = q := Except.ok.inj ((hkeeps.follow hp).symm.trans hq)
  refine ⟨hcheck, rfl, p, hkeeps'.follow (hkeeps.follow hp),
    hkeeps'.folders p (hkeeps.folders p hfolder), ?_, ?_⟩
  · rw [Disk.Tree.item?_setItem_of_ne (by simpa using documentFile_ne_imageFile n n)]
    exact Disk.Tree.item?_setItem_self hne _
  · exact Disk.Tree.item?_setItem_self hne' _

end Writing

/-- A folder keeps the two files of an artifact, and what is refused leaves no trace. -/
structure Folder.Contains (root context n : String) (document image : ByteArray) : Prop where
  refused : ∀ failure, check context n = .error failure →
    ∀ {m : Type → Type} [Monad m] [LawfulMonad m] (disk : Disk m),
      (Folder.store disk root).put context n document image = pure (.error failure)
  child : check context n = .ok () → ∀ file ∈ [documentFile n, imageFile n],
    Disk.names (Disk.join root file) = Disk.names root ++ [file] ∧
      Disk.isAbsolute (Disk.join root file) = Disk.isAbsolute root
  confined : ∀ t, Disk.Tree.Confines root [documentFile n, imageFile n] t
    (((Folder.store Disk.Tree.disk root).put context n document image).run t).2
  stored : ∀ t t' location,
    ((Folder.store Disk.Tree.disk root).put context n document image).run t = (.ok location, t') →
    location = ⟨context, Disk.join root (documentFile n), Disk.join root (imageFile n)⟩ ∧
    ∃ p, t'.follow (t'.base root) (Disk.names root) = .ok p ∧ t'.item? p = some .folder ∧
      t'.item? (p ++ [documentFile n]) = some (.file document) ∧
      t'.item? (p ++ [imageFile n]) = some (.file image)

theorem Folder.contains (root context n : String) (document image : ByteArray) :
    Folder.Contains root context n document image where
  refused := fun _ h _ _ _ disk => put_of_check_eq_error h disk root document image
  child := fun h _ hfile =>
    ⟨(isChild_of_check h hfile).names_join root, (isChild_of_check h hfile).isAbsolute_join root⟩
  confined := stays_put root context n document image
  stored := fun _ _ _ h => (put_eq_ok h).2

end FormulaDrawing.Artifact
