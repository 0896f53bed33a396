import FormulaDrawing.Proofs.Engine.Supersession

/-! What is left of an archive where a generation fails. All that the context had is removed before
anything is stored and is not put back, so that the context keeps the outputs in front of the refused
one; where the context itself is refused, the archive stays as it was. -/

namespace FormulaDrawing.Artifact

variable {context id n : String} {refusal : Failure}

theorem isRefusal_of_checkId (h : checkId id = .error refusal) : refusal.IsRefusal := by
  rw [checkId] at h
  split at h
  next fault hf =>
    cases h
    trivial
  next => cases h

theorem isRefusal_of_check (h : check context n = .error refusal) : refusal.IsRefusal := by
  rw [check, bind_eq_error_iff] at h
  rcases h with h | ⟨_, -, h⟩
  · exact isRefusal_of_checkId h
  · split at h
    next => exact isRefusal_of_checkId h
    next =>
      cases h
      trivial

end FormulaDrawing.Artifact

namespace FormulaDrawing.Engine

open Artifact

variable {e : Engine} {r : Request} {a a' : Archive} {context : String} {p refused : Output}
  {ps stored rest : List Output} {failure : Failure} {refusal : Artifact.Failure}

section Run

theorem run_storeOutputs_refused (hstored : ∀ p ∈ stored, check context p.name = .ok ())
    (hrefused : check context refused.name = .error refusal) (rest : List Output) (a : Archive) :
    ((stored ++ refused :: rest).mapM (storeOutput Archive.store context)).run.run a =
      (.error (.store refusal), a.insertAll (stored.flatMap Output.files)) := by
  induction stored generalizing a with
  | nil =>
    rw [List.nil_append, List.mapM_cons, run_bind, run_storeOutput, hrefused]
    rfl
  | cons p stored ih =>
    rw [List.forall_mem_cons] at hstored
    rw [List.cons_append, List.mapM_cons, run_bind, run_storeOutput, hstored.1]
    dsimp only
    rw [run_bind, ih hstored.2, ← Archive.insertAll_append]
    rfl

theorem fits_or_refused (context : String) (ps : List Output) :
    (∀ p ∈ ps, check context p.name = .ok ()) ∨
      ∃ stored refused rest refusal, ps = stored ++ refused :: rest ∧
        (∀ p ∈ stored, check context p.name = .ok ()) ∧
        check context refused.name = .error refusal := by
  induction ps with
  | nil => exact .inl nofun
  | cons p ps ih =>
    cases hp : check context p.name with
    | error refusal => exact .inr ⟨[], p, ps, refusal, rfl, nofun, hp⟩
    | ok u =>
      rcases ih with hall | ⟨stored, refused, rest, refusal, rfl, hstored, hrefused⟩
      · exact .inl (List.forall_mem_cons.2 ⟨hp, hall⟩)
      · exact .inr ⟨p :: stored, refused, rest, refusal, rfl,
          List.forall_mem_cons.2 ⟨hp, hstored⟩, hrefused⟩

theorem run_generateAndStore_eq_error_iff :
    (e.generateAndStore Archive.store r).run.run a = (.error failure, a') ↔
      ∃ refusal, failure = .store refusal ∧
        ((checkId r.context = .error refusal ∧ a' = a) ∨
          (checkId r.context = .ok () ∧ ∃ stored refused rest,
            (e.generate r).outputs = stored ++ refused :: rest ∧
            (∀ p ∈ stored, check r.context p.name = .ok ()) ∧
            check r.context refused.name = .error refusal ∧
            a' = (a.without r.context).insertAll (stored.flatMap Output.files))) := by
  rw [run_generateAndStore]
  constructor
  · intro h
    cases hc : checkId r.context with
    | error refusal =>
      rw [hc] at h
      cases h
      exact ⟨refusal, rfl, .inl ⟨rfl, rfl⟩⟩
    | ok u =>
      rw [hc] at h
      dsimp only at h
      rcases fits_or_refused r.context (e.generate r).outputs with
        hall | ⟨stored, refused, rest, refusal, hsplit, hstored, hrefused⟩
      · rw [run_storeOutputs hall] at h
        cases h
      · rw [hsplit, run_storeOutputs_refused hstored hrefused] at h
        cases h
        exact ⟨refusal, rfl, .inr ⟨rfl, stored, refused, rest, hsplit, hstored, hrefused, rfl⟩⟩
  · rintro ⟨refusal, rfl, ⟨hc, rfl⟩ | ⟨hc, stored, refused, rest, hsplit, hstored, hrefused, rfl⟩⟩
    · rw [hc]
    · rw [hc]
      dsimp only
      rw [hsplit, run_storeOutputs_refused hstored hrefused]

end Run

/-- What a refusal leaves of an archive. -/
inductive Interrupts (context : String) (outputs : List Output) (a : Archive) :
    Artifact.Failure → Archive → Prop
  /-- A refused context loses nothing. -/
  | context {refusal : Artifact.Failure} (invalid : checkId context = .error refusal) :
      Interrupts context outputs a refusal a
  /-- The outputs before the first refused one supersede all that the context had. -/
  | output {refusal : Artifact.Failure} {a' : Archive} (stored : List Output) (refused : Output)
      (rest : List Output) (valid : checkId context = .ok ())
      (split : outputs = stored ++ refused :: rest)
      (fit : ∀ p ∈ stored, check context p.name = .ok ())
      (unfit : ¬ (checkId refused.template = .ok () ∧ ¬ Overlaps refused.template))
      (refuses : check context refused.name = .error refusal)
      (supersedes : Supersedes context (stored.map (·.located context)) a a') :
      Interrupts context outputs a refusal a'

/-- A generation fails by a refusal alone. Other contexts keep their files, whatever is refused. -/
theorem interrupts_of_generateAndStore (he : e.Reachable)
    (h : (e.generateAndStore Archive.store r).run.run a = (.error failure, a')) :
    (∃ refusal, failure = .store refusal ∧ refusal.IsRefusal ∧
      Interrupts r.context (e.generate r).outputs a refusal a') ∧
    (a.Reachable → a'.Reachable) := by
  obtain ⟨refusal, rfl, ⟨hc, rfl⟩ | ⟨hc, stored, refused, rest, hsplit, hstored, hrefused, rfl⟩⟩ :=
    run_generateAndStore_eq_error_iff.1 h
  · exact ⟨⟨refusal, rfl, isRefusal_of_checkId hc, .context hc⟩, id⟩
  · have hmem : refused ∈ (e.generate r).outputs := by
      rw [hsplit]
      exact List.mem_append_right _ List.mem_cons_self
    have hunfit : ¬ (checkId refused.template = .ok () ∧ ¬ Overlaps refused.template) := by
      intro hfit
      have hok := (check_output_eq_ok_iff hmem).2 ⟨hc, hfit⟩
      rw [hrefused] at hok
      cases hok
    have hnodup : (stored.map (·.name)).Nodup := by
      have hnames := nodup_names he.sound r
      rw [hsplit, List.map_append] at hnames
      exact hnames.of_append_left
    have hsupersedes := supersedes_insertAll hnodup hstored a
    refine ⟨⟨refusal, rfl, isRefusal_of_check hrefused,
      .output stored refused rest hc hsplit hstored hunfit hrefused hsupersedes⟩, fun ha => ?_⟩
    have hwithout := ha.after (.removeContext r.context)
    rw [Archive.after_removeContext hc] at hwithout
    exact reachable_insertAll hwithout hstored

/-- The output of the second template is refused when that of the first one is stored already, and what
the context had is gone. -/
theorem interrupts_of_generateAndStore_second :
    ∃ (e : Engine) (a a' : Archive) (refusal : Artifact.Failure),
      a.names = ["blueprint_old_line_7_evaluated.png", "blueprint_old_line_7_evaluated.svg",
        "blueprint_t_line_17_evaluated.png", "blueprint_t_line_17_evaluated.svg"] ∧
      a'.names = ["blueprint_t_line_17_evaluated.png", "blueprint_t_line_17_evaluated.svg",
        "blueprint_t_line_7_evaluated.png", "blueprint_t_line_7_evaluated.svg"] ∧
      e.Reachable ∧ a.Reachable ∧ a'.Reachable ∧
      (e.generateAndStore Archive.store { context := "7" }).run.run a =
        (.error (.store refusal), a') ∧
      Interrupts "7" (e.generate { context := "7" }).outputs a refusal a' := by
  obtain ⟨e, he, hengine⟩ : ∃ e : Engine, e.Reachable ∧
      e = [Action.add { id := "t", name := "t", source := "<svg/>" },
        .add { id := "x_line_y", name := "x", source := "<svg/>" }].foldl after
        { rasterizer := fun _ => .ok .empty } := ⟨_, ⟨_, _, _, rfl⟩, rfl⟩
  obtain ⟨a, ha, harchive⟩ : ∃ a : Archive, a.Reachable ∧
      a = [Archive.Operation.put "7" "blueprint_old_line_7_evaluated" .empty .empty,
        .put "17" "blueprint_t_line_17_evaluated" .empty .empty].foldl Archive.after {} :=
    ⟨_, ⟨_, rfl⟩, rfl⟩
  have hleft : ((e.generateAndStore Archive.store { context := "7" }).run.run a).2.names =
      ["blueprint_t_line_17_evaluated.png", "blueprint_t_line_17_evaluated.svg",
        "blueprint_t_line_7_evaluated.png", "blueprint_t_line_7_evaluated.svg"] := by
    rw [hengine, harchive]
    decide +kernel
  have hfails : ((e.generateAndStore Archive.store { context := "7" }).run.run a).1.isOk =
      false := by
    rw [hengine, harchive]
    decide +kernel
  rcases hrun : (e.generateAndStore Archive.store { context := "7" }).run.run a with ⟨failure | g, a'⟩
  · rw [hrun] at hleft
    obtain ⟨⟨refusal, rfl, -, hinterrupts⟩, hreachable⟩ := interrupts_of_generateAndStore he hrun
    exact ⟨e, a, a', refusal, by rw [harchive]; decide +kernel, hleft, he, ha, hreachable ha, hrun,
      hinterrupts⟩
  · rw [hrun] at hfails
    cases hfails

/-- Of a context with files nothing is left when the first output is refused. -/
theorem generateAndStore_loses :
    ¬ ∀ (e : Engine) (r : Request) (a a' : Archive) (failure : Failure), e.Reachable → a.Reachable →
      (e.generateAndStore Archive.store r).run.run a = (.error failure, a') → a' = a := by
  intro hkeeps
  obtain ⟨e, he, hengine⟩ : ∃ e : Engine, e.Reachable ∧
      e = [Action.add { id := "x_line_y", name := "x", source := "<svg/>" }].foldl after
        { rasterizer := fun _ => .ok .empty } := ⟨_, ⟨_, _, _, rfl⟩, rfl⟩
  obtain ⟨a, ha, harchive⟩ : ∃ a : Archive, a.Reachable ∧
      a = [Archive.Operation.put "7" "blueprint_door_line_7_evaluated" .empty .empty].foldl
        Archive.after {} := ⟨_, ⟨_, rfl⟩, rfl⟩
  have hbefore : a.names = ["blueprint_door_line_7_evaluated.png",
      "blueprint_door_line_7_evaluated.svg"] := by
    rw [harchive]
    decide +kernel
  have hleft : ((e.generateAndStore Archive.store { context := "7" }).run.run a).2.names = [] := by
    rw [hengine, harchive]
    decide +kernel
  have hfails : ((e.generateAndStore Archive.store { context := "7" }).run.run a).1.isOk =
      false := by
    rw [hengine, harchive]
    decide +kernel
  rcases hrun : (e.generateAndStore Archive.store { context := "7" }).run.run a with ⟨failure | g, a'⟩
  · rw [hrun, hkeeps e _ a a' failure he ha hrun, hbefore] at hleft
    cases hleft
  · rw [hrun] at hfails
    cases hfails

end FormulaDrawing.Engine
