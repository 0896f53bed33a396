import FormulaDrawing.Proofs.Artifact.Archive

/-! Which names stand for one artifact only. For a template that overlaps the mark, the name reads as
that of another template in another context, so that both stores refuse it. -/

namespace FormulaDrawing.Artifact

variable {template context template' context' n : String}

section Names

theorem belongsTo_name (ht : checkId template = .ok ()) (context' : String) :
    belongsTo (documentFile (name template context)) context' = true ↔
      (¬ Overlaps template ∧ context' = context) ∨
        (Overlaps template ∧ context' = "line_" ++ context) := by
  rw [belongsTo_documentFile_iff]
  by_cases ho : Overlaps template
  · obtain ⟨front, rfl⟩ := ho
    have ho : Overlaps (front ++ "_line") := ⟨front, rfl⟩
    simp [parts?_name_of_overlap ht, ho, eq_comm]
  · simp [parts?_name ht ho, ho, eq_comm]

theorem name_eq_name_iff (ht : checkId template = .ok ()) (ht' : checkId template' = .ok ()) :
    name template' context' = name template context ↔
      (template' = template ∧ context' = context) ∨
      (template' = template ++ "_line" ∧ context = "line_" ++ context') ∨
      (template = template' ++ "_line" ∧ context' = "line_" ++ context) := by
  constructor
  · intro h
    -- Equal names are read alike, and the overlap alone decides how the name of an artifact is read.
    have hparts := congrArg parts? h
    by_cases ho : Overlaps template <;> by_cases ho' : Overlaps template'
    · obtain ⟨front, rfl⟩ := ho
      obtain ⟨front', rfl⟩ := ho'
      rw [parts?_name_of_overlap ht, parts?_name_of_overlap ht'] at hparts
      simp at hparts
      exact .inl ⟨by rw [hparts.1], hparts.2⟩
    · obtain ⟨front, rfl⟩ := ho
      rw [parts?_name_of_overlap ht, parts?_name ht' ho'] at hparts
      simp at hparts
      exact .inr (.inr ⟨by rw [hparts.1], hparts.2⟩)
    · obtain ⟨front', rfl⟩ := ho'
      rw [parts?_name ht ho, parts?_name_of_overlap ht'] at hparts
      simp at hparts
      exact .inr (.inl ⟨by rw [hparts.1], hparts.2.symm⟩)
    · rw [parts?_name ht ho, parts?_name ht' ho'] at hparts
      simp at hparts
      exact .inl hparts
  · rintro (⟨rfl, rfl⟩ | ⟨rfl, rfl⟩ | ⟨rfl, rfl⟩)
    · rfl
    · exact name_append_line ..
    · exact (name_append_line ..).symm

theorem check_name_of_overlap (ht : checkId template = .ok ()) (hc : checkId context = .ok ())
    (ho : Overlaps template) : check context (name template context) =
      .error (.invalidId (name template context) .foreign) := by
  obtain ⟨front, rfl⟩ := ho
  have hne : "line_" ++ context ≠ context := fun h => by
    have hlength := congrArg String.length h
    have hline : "line_".length = 5 := by decide
    rw [String.length_append] at hlength
    omega
  rw [check, hc, parts?_name_of_overlap ht]
  simp [bind, Except.bind, Option.filter_some, hne]

theorem check_name (ht : checkId template = .ok ()) (hc : checkId context = .ok ())
    (ho : ¬ Overlaps template) : check context (name template context) = .ok () :=
  check_eq_ok_iff.2 ⟨hc, template, parts?_name ht ho context, ht⟩

theorem check_name_eq_ok_iff : check context (name template context) = .ok () ↔
    checkId context = .ok () ∧ checkId template = .ok () ∧ ¬ Overlaps template := by
  constructor
  · intro h
    obtain ⟨hc, other, hparts, hother⟩ := check_eq_ok_iff.1 h
    obtain rfl : template = other := name_left_injective context (eq_name_of_parts? hparts)
    refine ⟨hc, hother, fun ho => ?_⟩
    rw [check_name_of_overlap hother hc ho] at h
    cases h
  · rintro ⟨hc, ht, ho⟩
    exact check_name ht hc ho

end Names

section Stores

/-- What is said of an identifier, and not of the disk. -/
def Failure.IsRefusal : Failure → Prop
  | invalidId _ _ => True
  | _ => False

variable {m : Type → Type} [Monad m] [LawfulMonad m] {α β : Type}

/-- Whatever the disk answers, the action does not end in a refusal. -/
def Accepts (action : ExceptT Failure m α) : Prop :=
  SatisfiesM (fun r => ∀ failure, r = .error failure → ¬ failure.IsRefusal) action.run

theorem Accepts.bind {action : ExceptT Failure m α} {next : α → ExceptT Failure m β}
    (h : Accepts action) (hn : ∀ a, Accepts (next a)) : Accepts (action >>= next) := by
  unfold Accepts
  rw [ExceptT.run_bind]
  refine SatisfiesM.bind h fun r hr => ?_
  cases r with
  | ok a => exact hn a
  | error failure =>
    refine SatisfiesM.pure fun f hf => ?_
    obtain rfl : failure = f := Except.error.inj hf
    exact hr failure rfl

theorem accepts_pure (a : α) : Accepts (pure a : ExceptT Failure m α) := by
  unfold Accepts
  rw [ExceptT.run_pure]
  exact SatisfiesM.pure nofun

theorem accepts_onFault {failure : String → Failure} (hf : ∀ s, ¬ (failure s).IsRefusal)
    (action : m (Except Disk.Fault α)) : Accepts (Folder.onFault failure action) := by
  unfold Accepts Folder.onFault
  rw [ExceptT.run_mk]
  refine SatisfiesM.bind SatisfiesM.trivial fun r _ => SatisfiesM.pure ?_
  cases r with
  | ok a => exact nofun
  | error fault =>
    rintro _ ⟨⟩
    exact hf fault.message

theorem accepts_put (disk : Disk m) (root : String) (h : check context n = .ok ())
    (document image : ByteArray) : Accepts (Folder.put disk root context n document image) := by
  have hcheck : Accepts (ExceptT.mk (pure (check context n)) : ExceptT Failure m Unit) := by
    rw [h]
    exact accepts_pure ()
  have hfolder : Accepts (Folder.onFault (.write root) (disk.makeFolder root)) :=
    accepts_onFault (fun _ => id) _
  have hfile : ∀ file content, Accepts (Folder.writeFile disk root file content) :=
    fun file content => (accepts_onFault (fun _ => id) _).bind fun _ => accepts_pure _
  exact hcheck.bind fun _ => hfolder.bind fun _ => (hfile _ _).bind fun _ =>
    (hfile _ _).bind fun _ => accepts_pure _

end Stores

/-- For valid identifiers all depends on whether the template overlaps the mark: then the name is that
of another artifact and cannot be stored; else it is read back, belongs to no other context, and is
never refused. -/
theorem name_unambiguous_iff (ht : checkId template = .ok ()) (hc : checkId context = .ok ()) :
    (parts? (name template context) = some (template, context) ↔ ¬ Overlaps template) ∧
    (∀ template' context', checkId template' = .ok () →
      (name template' context' = name template context ↔
        (template' = template ∧ context' = context) ∨
        (template' = template ++ "_line" ∧ context = "line_" ++ context') ∨
        (template = template' ++ "_line" ∧ context' = "line_" ++ context))) ∧
    (∀ context', belongsTo (documentFile (name template context)) context' = true ↔
      (¬ Overlaps template ∧ context' = context) ∨
        (Overlaps template ∧ context' = "line_" ++ context)) ∧
    (∀ (a : Archive) document image,
      (∃ r, a.put context (name template context) document image = .ok r) ↔ ¬ Overlaps template) ∧
    (¬ Overlaps template → ∀ {m : Type → Type} [Monad m] [LawfulMonad m] (disk : Disk m) root
      document image, Accepts (Folder.put disk root context (name template context) document image)) := by
  refine ⟨⟨fun hp ho => ?_, fun ho => parts?_name ht ho context⟩,
    fun _ _ ht' => name_eq_name_iff ht ht', belongsTo_name ht, fun a document image => ?_,
    fun ho _ _ _ disk root => accepts_put disk root (check_name ht hc ho)⟩
  · have hcheck := check_eq_ok_iff.2 ⟨hc, template, hp, ht⟩
    rw [check_name_of_overlap ht hc ho] at hcheck
    cases hcheck
  · rw [Archive.put_eq]
    by_cases ho : Overlaps template
    · rw [check_name_of_overlap ht hc ho]
      simp [ho, Except.map]
    · rw [check_name ht hc ho]
      simp [ho, Except.map]

/-- A template that misses the overlap by one letter, in a context that begins like the mark. -/
theorem name_unambiguous_iff_near : checkId "a_lin" = .ok () ∧ checkId "line_7" = .ok () ∧
    (parts? (name "a_lin" "line_7") = some ("a_lin", "line_7") ↔ ¬ Overlaps "a_lin") :=
  have ht : checkId "a_lin" = .ok () := by decide
  have hc : checkId "line_7" = .ok () := by decide
  ⟨ht, hc, (name_unambiguous_iff ht hc).1⟩

/-- Two artifacts with valid identifiers and one name, which is read as that of the second; the first
cannot be stored. -/
theorem name_line_collision :
    checkId "a_line" = .ok () ∧ checkId "7" = .ok () ∧
    checkId "a" = .ok () ∧ checkId "line_7" = .ok () ∧
    name "a_line" "7" = name "a" "line_7" ∧
    parts? (name "a_line" "7") = some ("a", "line_7") ∧
    belongsTo (documentFile (name "a_line" "7")) "7" = false ∧
    belongsTo (documentFile (name "a_line" "7")) "line_7" = true ∧
    ∀ a : Archive, a.put "7" (name "a_line" "7") .empty .empty =
      .error (.invalidId "blueprint_a_line_line_7_evaluated" .foreign) := by
  have ht : checkId "a_line" = .ok () := by decide
  have hc : checkId "7" = .ok () := by decide
  have hparts : parts? (name "a_line" "7") = some ("a", "line_7") := by decide
  have hcheck : check "7" (name "a_line" "7") =
      .error (.invalidId "blueprint_a_line_line_7_evaluated" .foreign) := by decide
  refine ⟨ht, hc, by decide, by decide, by decide, hparts, by decide, by decide, fun a => ?_⟩
  rw [Archive.put_eq, hcheck]
  rfl

end FormulaDrawing.Artifact
