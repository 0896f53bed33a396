import FormulaDrawing.Proofs.Artifact.Name
import FormulaDrawing.Proofs.Lookup

/-! Archives with a history. Their files stand in strict order, so that they are known by what is found
under each name, and every file has the name of an artifact that was checked. -/

namespace FormulaDrawing.Artifact.Archive

variable {context n f : String} {content : ByteArray} {files files' : List (String × ByteArray)}
  {a b : Archive}

section Files

def Ascending (files : List (String × ByteArray)) : Prop := files.Pairwise fun f g => f.1 < g.1

theorem Ascending.nodup (h : Ascending files) : (files.map (·.1)).Nodup :=
  List.Pairwise.nodup (List.pairwise_map.2 h)

theorem mem_insertFile {g : String × ByteArray} (h : g ∈ insertFile n content files) :
    g = (n, content) ∨ g ∈ files := by
  induction files with
  | nil => exact .inl (List.mem_singleton.1 h)
  | cons x files ih =>
    obtain ⟨m, c⟩ := x
    rw [insertFile] at h
    split_ifs at h
    · exact List.mem_cons.1 h
    · exact (List.mem_cons.1 h).imp_right (List.mem_cons_of_mem _)
    · rcases List.mem_cons.1 h with rfl | h
      · exact .inr List.mem_cons_self
      · exact (ih h).imp_right (List.mem_cons_of_mem _)

theorem ascending_insertFile (h : Ascending files) (n : String) (content : ByteArray) :
    Ascending (insertFile n content files) := by
  induction files with
  | nil => exact List.pairwise_singleton ..
  | cons x files ih =>
    obtain ⟨m, c⟩ := x
    obtain ⟨hm, hrest⟩ := List.pairwise_cons.1 h
    rw [insertFile]
    split_ifs with hlt heq
    · refine List.pairwise_cons.2 ⟨fun g hg => ?_, h⟩
      rcases List.mem_cons.1 hg with rfl | hg
      · exact hlt
      · exact hlt.trans (hm g hg)
    · exact List.pairwise_cons.2 ⟨heq ▸ hm, hrest⟩
    · refine List.pairwise_cons.2 ⟨fun g hg => ?_, ih hrest⟩
      rcases mem_insertFile hg with rfl | hg
      · exact lt_of_le_of_ne (not_lt.1 hlt) (Ne.symm heq)
      · exact hm g hg

theorem mem_iff_lookup (h : (files.map (·.1)).Nodup) :
    (n, content) ∈ files ↔ files.lookup n = some content := by
  induction files with
  | nil => simp
  | cons x files ih =>
    obtain ⟨m, c⟩ := x
    obtain ⟨hm, hrest⟩ := List.nodup_cons.1 h
    by_cases hn : n = m
    · subst hn
      have hnot : (n, content) ∉ files := fun hmem =>
        hm (List.mem_map.2 ⟨(n, content), hmem, rfl⟩)
      simp [hnot, eq_comm]
    · rw [lookup_cons_of_ne hn, ← ih hrest]
      simp [hn]

theorem Ascending.ext (h : Ascending files) (h' : Ascending files')
    (hl : ∀ f, files.lookup f = files'.lookup f) : files = files' := by
  have hirrefl : Std.Irrefl fun f g : String × ByteArray => f.1 < g.1 := ⟨fun f => lt_irrefl f.1⟩
  have hantisymm : Std.Antisymm fun f g : String × ByteArray => f.1 < g.1 :=
    ⟨fun f g hfg hgf => absurd hgf hfg.asymm⟩
  refine List.Pairwise.eq_of_mem_iff h h' ?_
  rintro ⟨f, c⟩
  rw [mem_iff_lookup h.nodup, mem_iff_lookup h'.nodup, hl f]

end Files

/-- Holds all the files, later ones before earlier ones of the same name. -/
def insertAll (a : Archive) (fs : List (String × ByteArray)) : Archive :=
  { files := fs.foldl (fun files f => insertFile f.1 f.2 files) a.files }

def without (a : Archive) (context : String) : Archive :=
  { files := a.files.filter fun f => !belongsTo f.1 context }

theorem insertAll_append (a : Archive) (fs gs : List (String × ByteArray)) :
    a.insertAll (fs ++ gs) = (a.insertAll fs).insertAll gs := by
  rw [insertAll, insertAll, insertAll, List.foldl_append]

theorem get?_insertAll {fs : List (String × ByteArray)} (hn : (fs.map (·.1)).Nodup)
    (a : Archive) (f : String) : (a.insertAll fs).get? f = (fs.lookup f).or (a.get? f) := by
  induction fs generalizing a with
  | nil => rfl
  | cons x fs ih =>
    obtain ⟨m, c⟩ := x
    obtain ⟨hm, hrest⟩ := List.nodup_cons.1 hn
    have hget : (a.insertAll [(m, c)]).get? f = if f = m then some c else a.get? f :=
      lookup_insertFile ..
    rw [← List.singleton_append, insertAll_append, ih hrest, hget, List.singleton_append]
    by_cases hf : f = m
    · subst hf
      have hnone : fs.lookup f = none := by
        rw [List.lookup_eq_none_iff]
        intro p hp
        have hne : f ≠ p.1 := fun he => hm (List.mem_map.2 ⟨p, hp, he.symm⟩)
        simpa using hne
      simp [hnone]
    · rw [lookup_cons_of_ne hf, if_neg hf]

theorem get?_without (a : Archive) (context f : String) :
    (a.without context).get? f = if belongsTo f context then none else a.get? f := by
  rw [get?, without, lookup_filter (fun f => !belongsTo f context), get?]
  cases belongsTo f context <;> rfl

section Operations

theorem put_eq (a : Archive) (context n : String) (document image : ByteArray) :
    a.put context n document image = (check context n).map fun _ =>
      (a.insertAll [(documentFile n, document), (imageFile n, image)],
        ⟨context, documentFile n, imageFile n⟩) := by
  rw [Archive.put]
  cases check context n <;> rfl

theorem removeContext_eq (a : Archive) (context : String) :
    a.removeContext context = (checkId context).map fun _ =>
      (a.without context, (a.files.filter fun f => belongsTo f.1 context).length) := by
  rw [removeContext, List.partition_eq_filter_filter]
  cases checkId context <;> rfl

inductive Operation where
  | put (context name : String) (document image : ByteArray)
  | removeContext (context : String)

def after (a : Archive) : Operation → Archive
  | .put context name document image => ((store.put context name document image).run a).2
  | .removeContext context => ((store.removeContext context).run a).2

def Reachable (a : Archive) : Prop := ∃ operations : List Operation, a = operations.foldl after {}

theorem Reachable.after (h : a.Reachable) (o : Operation) : (a.after o).Reachable := by
  obtain ⟨operations, rfl⟩ := h
  exact ⟨operations ++ [o], by rw [List.foldl_append]; rfl⟩

theorem after_put (h : check context n = .ok ()) (document image : ByteArray) :
    a.after (.put context n document image) =
      a.insertAll [(documentFile n, document), (imageFile n, image)] := by
  simp only [Archive.after, store, change, StateT.run, put_eq, h, Except.map]

theorem after_removeContext (h : checkId context = .ok ()) :
    a.after (.removeContext context) = a.without context := by
  simp only [Archive.after, store, change, StateT.run, removeContext_eq, h, Except.map]

theorem after_cases (a : Archive) (o : Operation) : a.after o = a ∨
    (∃ context n document image, check context n = .ok () ∧
      a.after o = a.insertAll [(documentFile n, document), (imageFile n, image)]) ∨
    ∃ context, a.after o = a.without context := by
  cases o with
  | put context n document image =>
    cases h : check context n with
    | error failure =>
      left
      simp only [Archive.after, store, change, StateT.run, put_eq, h, Except.map]
    | ok => exact .inr (.inl ⟨context, n, document, image, h, after_put h ..⟩)
  | removeContext context =>
    cases h : checkId context with
    | error failure =>
      left
      simp only [Archive.after, store, change, StateT.run, removeContext_eq, h, Except.map]
    | ok => exact .inr (.inr ⟨context, after_removeContext h⟩)

end Operations

section History

/-- In order, and each with the name of an artifact that was checked. -/
structure Sound (a : Archive) : Prop where
  ascending : Ascending a.files
  named : ∀ f ∈ a.files, ∃ context n, check context n = .ok () ∧ stem? f.1 = some n

theorem Sound.without (h : a.Sound) (context : String) : (a.without context).Sound where
  ascending := h.ascending.sublist List.filter_sublist
  named := fun f hf => h.named f (List.mem_of_mem_filter hf)

theorem Sound.insertAll (h : a.Sound) (hn : check context n = .ok ())
    (document image : ByteArray) :
    (a.insertAll [(documentFile n, document), (imageFile n, image)]).Sound where
  ascending := ascending_insertFile (ascending_insertFile h.ascending ..) ..
  named := fun f hf => by
    rcases mem_insertFile hf with rfl | hf
    · exact ⟨context, n, hn, stem?_imageFile n⟩
    rcases mem_insertFile hf with rfl | hf
    · exact ⟨context, n, hn, stem?_documentFile n⟩
    · exact h.named f hf

theorem Reachable.sound (h : a.Reachable) : a.Sound := by
  obtain ⟨operations, rfl⟩ := h
  induction operations using List.reverseRecOn with
  | nil => exact ⟨List.Pairwise.nil, nofun⟩
  | append_singleton operations o ih =>
    rw [List.foldl_append, List.foldl_cons, List.foldl_nil]
    rcases after_cases (operations.foldl Archive.after {}) o with ho | ⟨_, _, _, _, hn, ho⟩ | ⟨_, ho⟩
    · rw [ho]
      exact ih
    · rw [ho]
      exact ih.insertAll hn ..
    · rw [ho]
      exact ih.without _

theorem Sound.checkId_of_belongsTo (h : a.Sound) {f : String × ByteArray} (hf : f ∈ a.files)
    (hb : belongsTo f.1 context = true) : checkId context = .ok () := by
  obtain ⟨owner, n, hn, hstem⟩ := h.named f hf
  obtain ⟨m, template, hm, hp⟩ := belongsTo_iff.1 hb
  obtain rfl : n = m := Option.some.inj (hstem.symm.trans hm)
  obtain ⟨howner, template', hp', -⟩ := check_eq_ok_iff.1 hn
  have hsame : owner = context := (congrArg (·.2) (Option.some.inj (hp'.symm.trans hp)) :)
  exact hsame ▸ howner

theorem Sound.without_eq_self (h : a.Sound) (hc : checkId context ≠ .ok ()) :
    a.without context = a := by
  have hall : a.files.filter (fun f => !belongsTo f.1 context) = a.files := by
    refine List.filter_eq_self.2 fun f hf => ?_
    cases hb : belongsTo f.1 context with
    | false => rfl
    | true => exact absurd (h.checkId_of_belongsTo hf hb) hc
  rw [Archive.without, hall]

theorem Sound.without_eq (ha : a.Sound) (hb : b.Sound)
    (h : ∀ f, belongsTo f context = false → a.get? f = b.get? f) :
    a.without context = b.without context := by
  have hfiles : (a.without context).files = (b.without context).files := by
    refine Ascending.ext (ha.without context).ascending (hb.without context).ascending fun f => ?_
    have hget : (a.without context).get? f = (b.without context).get? f := by
      rw [get?_without, get?_without]
      split
      · rfl
      next hf => exact h f (by simpa using hf)
    exact hget
  rw [Archive.without, Archive.without, Archive.mk.injEq]
  exact hfiles

end History

end FormulaDrawing.Artifact.Archive
