import FormulaDrawing.Proofs.Artifact.Ambiguity
import FormulaDrawing.Proofs.Engine.History
import FormulaDrawing.Proofs.Engine.Outcome

/-! What a generation does to an archive. All that belongs to the context goes before anything is stored,
and no two outputs share a file, so that afterwards the context has the files of this generation and no
others. -/

namespace FormulaDrawing.Engine

open Artifact

variable {e : Engine} {r : Request} {a a' b : Archive} {context : String} {p q : Output}
  {ps qs : List Output} {g : Generation}

namespace Output

def located (context : String) (p : Output) : Output :=
  { p with location := some ⟨context, documentFile p.name, imageFile p.name⟩ }

def files (p : Output) : List (String × ByteArray) :=
  [(documentFile p.name, p.document.toUTF8), (imageFile p.name, p.image)]

end Output

section Outputs

theorem outputs_eq (e : Engine) (r : Request) : (e.generate r).outputs =
    e.registry.entries.filterMap fun x => (e.outcome r x.template).output? := by
  rw [generate, Generation.ofOutcomes, Registry.templates, List.map_map, List.filterMap_map]
  rfl

theorem of_produced {t : Template} (h : e.outcome r t = .produced p) :
    p.template = t.id ∧ p.name = name t.id r.context := by
  have hbecomes := becomes_outcome e r t
  rw [h] at hbecomes
  cases hbecomes with
  | produced => exact ⟨rfl, rfl⟩

end Outputs

section Names

theorem nodup_names (he : e.Sound) (r : Request) : ((e.generate r).outputs.map (·.name)).Nodup := by
  have hids : e.registry.entries.Pairwise fun x y => x.template.id ≠ y.template.id :=
    List.pairwise_map.1 he.nodup
  rw [outputs_eq, List.nodup_iff_pairwise_ne, List.pairwise_map, List.pairwise_filterMap]
  refine hids.imp fun {x y} hne p hp q hq hname => hne ?_
  rw [(of_produced (Outcome.output?_eq_some_iff.1 hp)).2,
    (of_produced (Outcome.output?_eq_some_iff.1 hq)).2] at hname
  exact name_left_injective r.context hname

theorem nodup_files (h : (ps.map (·.name)).Nodup) :
    ((ps.flatMap Output.files).map (·.1)).Nodup := by
  have hmap : (ps.flatMap Output.files).map (·.1) =
      ps.flatMap fun p => [documentFile p.name, imageFile p.name] := List.map_flatMap
  rw [List.nodup_iff_pairwise_ne, List.pairwise_map] at h
  rw [hmap, List.nodup_flatMap]
  refine ⟨fun p _ => ?_, h.imp fun {p q} hne => ?_⟩
  · simpa using documentFile_ne_imageFile p.name p.name
  · simp [Function.onFun, List.disjoint_left, documentFile_ne_imageFile,
      (documentFile_ne_imageFile _ _).symm, documentFile_injective.eq_iff,
      imageFile_injective.eq_iff, hne]

end Names

section Run

theorem run_storeOutput (a : Archive) (context : String) (p : Output) :
    (storeOutput Archive.store context p).run.run a =
      match check context p.name with
      | .ok () => (.ok (p.located context), a.insertAll p.files)
      | .error failure => (.error (.store failure), a) := by
  have hput : (Archive.store.put context p.name p.document.toUTF8 p.image).run a =
      match check context p.name with
      | .ok () => (.ok ⟨context, documentFile p.name, imageFile p.name⟩, a.insertAll p.files)
      | .error failure => (.error failure, a) := by
    simp only [Archive.store, Archive.change, StateT.run, Archive.put_eq]
    cases check context p.name <;> rfl
  simp only [storeOutput, ExceptT.run_bind, ExceptT.run_mk, StateT.run_bind, hput]
  cases check context p.name <;> rfl

theorem run_storeOutputs (h : ∀ p ∈ ps, check context p.name = .ok ()) (a : Archive) :
    (ps.mapM (storeOutput Archive.store context)).run.run a =
      (.ok (ps.map (·.located context)), a.insertAll (ps.flatMap Output.files)) := by
  induction ps generalizing a with
  | nil => rfl
  | cons p ps ih =>
    rw [List.forall_mem_cons] at h
    rw [List.mapM_cons, run_bind, run_storeOutput, h.1]
    dsimp only
    rw [run_bind, ih h.2, ← Archive.insertAll_append]
    rfl

theorem check_of_run_storeOutputs
    (h : (ps.mapM (storeOutput Archive.store context)).run.run a = (.ok qs, a')) :
    ∀ p ∈ ps, check context p.name = .ok () := by
  induction ps generalizing a qs a' with
  | nil => exact nofun
  | cons p ps ih =>
    rw [List.mapM_cons, run_bind, run_storeOutput] at h
    cases hp : check context p.name with
    | error failure =>
      rw [hp] at h
      cases h
    | ok u =>
      rw [hp] at h
      dsimp only at h
      rw [run_bind] at h
      split at h
      next qs' a'' hrest => exact List.forall_mem_cons.2 ⟨hp, ih hrest⟩
      next => cases h

theorem run_removeContext (a : Archive) (context : String) :
    (Archive.store.removeContext context).run a =
      match checkId context with
      | .ok () => (.ok (a.files.filter fun f => belongsTo f.1 context).length, a.without context)
      | .error failure => (.error failure, a) := by
  simp only [Archive.store, Archive.change, StateT.run, Archive.removeContext_eq]
  cases checkId context <;> rfl

theorem run_generateAndStore (e : Engine) (r : Request) (a : Archive) :
    (e.generateAndStore Archive.store r).run.run a =
      match checkId r.context with
      | .ok () =>
        match ((e.generate r).outputs.mapM (storeOutput Archive.store r.context)).run.run
          (a.without r.context) with
        | (.ok outputs, a') => (.ok { e.generate r with outputs }, a')
        | (.error failure, a') => (.error failure, a')
      | .error failure => (.error (.store failure), a) := by
  have hremove : (ExceptT.mk do
        return (← Archive.store.removeContext r.context).mapError Failure.store :
          ExceptT Failure (StateM Archive) Nat).run.run a =
      match checkId r.context with
      | .ok () => (.ok (a.files.filter fun f => belongsTo f.1 r.context).length, a.without r.context)
      | .error failure => (.error (.store failure), a) := by
    rw [ExceptT.run_mk, StateT.run_bind, run_removeContext]
    cases checkId r.context <;> rfl
  rw [generateAndStore, run_bind, hremove]
  cases checkId r.context with
  | error failure => rfl
  | ok =>
    dsimp only
    rw [run_bind]
    obtain ⟨result, a'⟩ := ((e.generate r).outputs.mapM (storeOutput Archive.store r.context)).run.run
      (a.without r.context)
    cases result <;> rfl

theorem run_generateAndStore_eq_ok_iff :
    (e.generateAndStore Archive.store r).run.run a = (.ok g, a') ↔
      checkId r.context = .ok () ∧
      (∀ p ∈ (e.generate r).outputs, check r.context p.name = .ok ()) ∧
      g = { e.generate r with outputs := (e.generate r).outputs.map (·.located r.context) } ∧
      a' = (a.without r.context).insertAll ((e.generate r).outputs.flatMap Output.files) := by
  rw [run_generateAndStore]
  constructor
  · intro h
    cases hc : checkId r.context with
    | error failure =>
      rw [hc] at h
      cases h
    | ok u =>
      rw [hc] at h
      dsimp only at h
      split at h
      next outputs a'' hstore =>
        have hall := check_of_run_storeOutputs hstore
        rw [run_storeOutputs hall] at hstore
        cases hstore
        cases h
        exact ⟨rfl, hall, rfl, rfl⟩
      next => cases h
  · rintro ⟨hc, hall, rfl, rfl⟩
    rw [hc]
    dsimp only
    rw [run_storeOutputs hall]

theorem check_output_eq_ok_iff (hp : p ∈ (e.generate r).outputs) :
    check r.context p.name = .ok () ↔
      checkId r.context = .ok () ∧ checkId p.template = .ok () ∧ ¬ Overlaps p.template := by
  obtain ⟨t, -, ht⟩ := mem_outputs hp
  obtain ⟨htemplate, hname⟩ := of_produced ht
  rw [htemplate, hname, check_name_eq_ok_iff]

end Run

/-- What there is of a context is the two files of each output, and of other contexts what there was. -/
structure Supersedes (context : String) (outputs : List Output) (a a' : Archive) : Prop where
  others : ∀ f, belongsTo f context = false → a'.get? f = a.get? f
  own : ∀ f, belongsTo f context = true → a'.get? f = (outputs.flatMap Output.files).lookup f
  belong : ∀ f ∈ outputs.flatMap Output.files, belongsTo f.1 context = true
  distinct : ((outputs.flatMap Output.files).map (·.1)).Nodup
  located : ∀ p ∈ outputs, p.location = some ⟨context, documentFile p.name, imageFile p.name⟩

theorem belongsTo_of_mem_files (h : check context p.name = .ok ()) {f : String × ByteArray}
    (hf : f ∈ p.files) : belongsTo f.1 context = true := by
  obtain ⟨-, template, hparts, -⟩ := check_eq_ok_iff.1 h
  rw [belongsTo_iff]
  rcases List.mem_pair.1 hf with rfl | rfl
  · exact ⟨p.name, template, stem?_documentFile p.name, hparts⟩
  · exact ⟨p.name, template, stem?_imageFile p.name, hparts⟩

theorem supersedes_insertAll (hnodup : (ps.map (·.name)).Nodup)
    (hall : ∀ p ∈ ps, check context p.name = .ok ()) (a : Archive) :
    Supersedes context (ps.map (·.located context)) a
      ((a.without context).insertAll (ps.flatMap Output.files)) := by
  have hfiles : (ps.map (·.located context)).flatMap Output.files = ps.flatMap Output.files := by
    rw [List.flatMap_map]
    rfl
  have hdistinct := nodup_files hnodup
  have hbelong : ∀ f ∈ ps.flatMap Output.files, belongsTo f.1 context = true := by
    intro f hf
    obtain ⟨p, hp, hf⟩ := List.mem_flatMap.1 hf
    exact belongsTo_of_mem_files (hall p hp) hf
  refine ⟨fun f hf => ?_, fun f hf => ?_, hfiles ▸ hbelong, hfiles ▸ hdistinct, ?_⟩
  · have hnone : (ps.flatMap Output.files).lookup f = none := by
      rw [List.lookup_eq_none_iff]
      intro g hg
      have hne : f ≠ g.1 := fun he => by simp [he, hbelong g hg] at hf
      simpa using hne
    rw [Archive.get?_insertAll hdistinct, hnone, Option.none_or, Archive.get?_without, hf]
    rfl
  · rw [Archive.get?_insertAll hdistinct, Archive.get?_without, if_pos hf, Option.or_none, hfiles]
  · intro p hp
    obtain ⟨q, -, rfl⟩ := List.mem_map.1 hp
    rfl

theorem reachable_insertAll (h : a.Reachable) (hall : ∀ p ∈ ps, check context p.name = .ok ()) :
    (a.insertAll (ps.flatMap Output.files)).Reachable := by
  induction ps generalizing a with
  | nil => exact h
  | cons p ps ih =>
    rw [List.forall_mem_cons] at hall
    have hput := h.after (.put context p.name p.document.toUTF8 p.image)
    rw [Archive.after_put hall.1] at hput
    rw [List.flatMap_cons, Archive.insertAll_append]
    exact ih hput hall.2

/-- A generation that comes through supersedes the earlier ones of its context and leaves the others as
they are. What its context had before does not matter at all. -/
theorem supersedes_of_generateAndStore (he : e.Reachable) (ha : a.Reachable) (r : Request) :
    (∀ g a', (e.generateAndStore Archive.store r).run.run a = (.ok g, a') →
      g = { e.generate r with outputs := (e.generate r).outputs.map (·.located r.context) } ∧
      Supersedes r.context g.outputs a a' ∧ a'.Reachable) ∧
    ∀ b : Archive, b.Reachable → (∀ f, belongsTo f r.context = false → a.get? f = b.get? f) →
      (e.generateAndStore Archive.store r).run.run a =
        (e.generateAndStore Archive.store r).run.run b := by
  refine ⟨fun g a' h => ?_, fun b hb hagree => ?_⟩
  · obtain ⟨hc, hall, rfl, rfl⟩ := run_generateAndStore_eq_ok_iff.1 h
    have hwithout := ha.after (.removeContext r.context)
    rw [Archive.after_removeContext hc] at hwithout
    exact ⟨rfl, supersedes_insertAll (nodup_names he.sound r) hall a,
      reachable_insertAll hwithout hall⟩
  · have hsame := ha.sound.without_eq hb.sound hagree
    rw [run_generateAndStore, run_generateAndStore, hsame]
    cases hc : checkId r.context with
    | ok => rfl
    | error failure =>
      have hne : checkId r.context ≠ .ok () := by simp [hc]
      rw [← ha.sound.without_eq_self hne, hsame, hb.sound.without_eq_self hne]

/-- What the context has is of a template that is gone, and its name is the end of another's. -/
theorem supersedes_of_generateAndStore_renamed :
    ∃ (e : Engine) (a a' : Archive) (g : Generation),
      a.names = ["blueprint_old_line_7_evaluated.png", "blueprint_old_line_7_evaluated.svg",
        "blueprint_t_line_17_evaluated.png", "blueprint_t_line_17_evaluated.svg"] ∧
      a'.names = ["blueprint_t_line_17_evaluated.png", "blueprint_t_line_17_evaluated.svg",
        "blueprint_t_line_7_evaluated.png", "blueprint_t_line_7_evaluated.svg"] ∧
      e.Reachable ∧ a.Reachable ∧
      (e.generateAndStore Archive.store { context := "7" }).run.run a = (.ok g, a') ∧
      Supersedes "7" g.outputs a a' := by
  have he : Reachable ([Action.add { id := "t", name := "t", source := "<svg/>" }].foldl after
      { rasterizer := fun _ => .ok .empty }) := ⟨_, _, _, rfl⟩
  have ha : Archive.Reachable ([.put "7" "blueprint_old_line_7_evaluated" .empty .empty,
      .put "17" "blueprint_t_line_17_evaluated" .empty .empty].foldl Archive.after {}) := ⟨_, rfl⟩
  have hsupersedes := (supersedes_of_generateAndStore he ha { context := "7" }).1
  refine ⟨_, _, _, _, ?_, ?_, he, ha, run_generateAndStore_eq_ok_iff.2 ⟨?_, ?_, rfl, rfl⟩,
    (hsupersedes _ _ (run_generateAndStore_eq_ok_iff.2 ⟨?_, ?_, rfl, rfl⟩)).2.1⟩
  all_goals decide +kernel

end FormulaDrawing.Engine
