import FormulaDrawing.Drawing.Writing
import FormulaDrawing.Proofs.Drawing.Branch

/-! What is written of a drawing. The agenda of the writer, on which an element leaves its children and
its end tag, spells the tree out by recursion, and in memory nothing stops it. -/

namespace FormulaDrawing

open Markup Drawing

namespace Tree

mutual

/-- Nothing that is below a text or a comment is written. -/
def spelled : Tree Content → List Char
  | node (.text s) _ => escape s.toList
  | node (.comment s) _ => '<' :: '!' :: '-' :: '-' :: s.toList ++ ['-', '-', '>']
  | node (.element e) [] => '<' :: tagChars e ++ ['/', '>']
  | node (.element e) (t :: ts) =>
    '<' :: tagChars e ++ '>' :: (t.spelled ++ spelledAll ts) ++ '<' :: '/' :: e.name.toList ++ ['>']

def spelledAll : List (Tree Content) → List Char
  | [] => []
  | t :: ts => t.spelled ++ spelledAll ts

end

theorem spelled_element_cons (e : Element) {ts : List (Tree Content)} (hts : ts ≠ []) :
    spelled (node (.element e) ts) =
      '<' :: tagChars e ++ '>' :: spelledAll ts ++ '<' :: '/' :: e.name.toList ++ ['>'] := by
  cases ts with
  | nil => exact absurd rfl hts
  | cons t ts => rfl

mutual

/-- What is written of a tree, one after another. Nothing that is below a text or a comment is. -/
def serial : Tree Content → List Construct
  | node (.text s) _ => [.text (escape s.toList)]
  | node (.comment s) _ => [.comment s.toList]
  | node (.element e) [] => [.empty (tagChars e)]
  | node (.element e) (t :: ts) =>
    .opening (tagChars e) :: (t.serial ++ serialAll ts ++ [.closing e.name.toList])

def serialAll : List (Tree Content) → List Construct
  | [] => []
  | t :: ts => t.serial ++ serialAll ts

end

variable {ts : List (Tree Content)}

theorem serialAll_eq (ts : List (Tree Content)) : serialAll ts = ts.flatMap serial := by
  induction ts with
  | nil => rfl
  | cons t ts ih => rw [serialAll, ih, List.flatMap_cons]

theorem serial_element_cons (e : Element) (hts : ts ≠ []) : serial (node (.element e) ts) =
    .opening (tagChars e) :: (ts.flatMap serial ++ [.closing e.name.toList]) := by
  obtain ⟨t, ts, rfl⟩ := List.exists_cons_of_ne_nil hts
  rw [serial, serialAll_eq, List.flatMap_cons]

theorem spelledAll_eq (ts : List (Tree Content)) : spelledAll ts = ts.flatMap spelled := by
  induction ts with
  | nil => rfl
  | cons t ts ih => rw [spelledAll, ih, List.flatMap_cons]

theorem written_serial (t : Tree Content) : t.serial.flatMap Construct.written = t.spelled := by
  induction t using Tree.induct with
  | node c ts ih =>
    cases c with
    | text s => simp [serial, spelled, Construct.written]
    | comment s => simp [serial, spelled, Construct.written, commentEnd]
    | element e =>
      by_cases hts : ts = []
      · subst hts
        simp [serial, spelled, Construct.written]
      · have hall : (ts.flatMap serial).flatMap Construct.written = ts.flatMap spelled := by
          rw [List.flatMap_assoc]
          exact List.flatMap_congr ih
        rw [serial_element_cons e hts, spelled_element_cons e hts, spelledAll_eq, List.flatMap_cons,
          List.flatMap_append, hall]
        simp [Construct.written]

end Tree

namespace Drawing

variable {d : Drawing} {p : Option Handle} {b : Layout}

theorem markup_nil (d : Drawing) (n : Nat) : d.markup n [] = [] := by cases n <;> rfl

/-- The layout is written in at most two steps for each of its nodes. -/
def Emits (d : Drawing) (b : Layout) : Prop :=
  ∃ k ≤ 2 * b.handles.length, ∀ n tasks,
    d.markup (k + n) (.node b.handle :: tasks) = b.contents.serial ++ d.markup n tasks

theorem Emits.all {bs : List Layout} (h : ∀ b ∈ bs, d.Emits b) :
    ∃ k ≤ 2 * (bs.flatMap Tree.handles).length, ∀ n tasks,
      d.markup (k + n) ((bs.map Tree.handle).map .node ++ tasks) =
        (bs.map Tree.contents).flatMap Tree.serial ++ d.markup n tasks := by
  induction bs with
  | nil => exact ⟨0, Nat.zero_le _, by simp⟩
  | cons b bs ih =>
    obtain ⟨k, hk, he⟩ := h b (by simp)
    obtain ⟨m, hm, hes⟩ := ih fun c hc => h c (by simp [hc])
    refine ⟨k + m, ?_, fun n tasks => ?_⟩
    · rw [List.flatMap_cons, List.length_append]
      omega
    · rw [List.map_cons, List.map_cons, List.cons_append, Nat.add_assoc, he, hes, List.map_cons,
        List.flatMap_cons, List.append_assoc]

theorem emits_branch (hb : d.Branch p b) : d.Emits b := by
  induction hb with
  | @node p h c bs top below ih =>
    have hb : d.Branch p (.node (h, c) bs) := .node top below
    have hcontent : d.content? h = some c := hb.content?
    have hchildren : d.children h = bs.map Tree.handle := hb.children
    rw [Emits, Tree.handle_node, Tree.handles_node, Tree.contents_node, List.length_cons]
    cases c with
    | text s =>
      refine ⟨1, by omega, fun n tasks => ?_⟩
      rw [Nat.add_comm, markup, hcontent, Tree.serial]
      rfl
    | comment s =>
      refine ⟨1, by omega, fun n tasks => ?_⟩
      rw [Nat.add_comm, markup, hcontent, Tree.serial]
      rfl
    | element e =>
      cases bs with
      | nil =>
        refine ⟨1, by omega, fun n tasks => ?_⟩
        rw [Nat.add_comm, markup, hcontent, hchildren, List.map_nil, List.map_nil, Tree.serial]
        rfl
      | cons b bs =>
        -- One step more for each of the two tags; the end tag waits below the children.
        obtain ⟨k, hk, he⟩ := Emits.all ih
        refine ⟨k + 2, by omega, fun n tasks => ?_⟩
        rw [show k + 2 + n = k + (n + 1) + 1 by omega, markup, hcontent, hchildren, List.map_cons]
        simp only
        rw [← List.map_cons, he, markup, Tree.serial_element_cons e (by simp)]
        simp

theorem markup_node (hb : d.Branch p b) (hn : b.handles.Nodup) (more : Nat) :
    d.markup (2 * d.nodes.size + more) [.node b.handle] = b.contents.serial := by
  obtain ⟨k, hk, he⟩ := emits_branch hb
  have hle := hb.length_handles_le hn
  have hw := he (2 * d.nodes.size + more - k) []
  rwa [Nat.add_sub_cancel' (by omega), markup_nil, List.append_nil] at hw

theorem emit_node (hb : d.Branch p b) (hn : b.handles.Nodup) (more : Nat) :
    d.emit (2 * d.nodes.size + more) [.node b.handle] = b.contents.spelled := by
  rw [emit, markup_node hb hn, Tree.written_serial]

theorem write_eq (d : Drawing) : d.write = (if d.declared then declarationText else "") ++
    String.ofList (d.emit (2 * d.nodes.size) [.node d.root]) := by
  rw [write, pieces, emit, ← String.toList_inj, String.toList_append, String.toList_ofList,
    String.toList_join, List.flatMap_append, List.flatMap_map]
  simp only [String.toList_ofList]
  cases d.declared <;> rfl

theorem write_of_branch (hb : d.Branch p b) (htop : b.handle = d.root) (hn : b.handles.Nodup) :
    d.write = (if d.declared then declarationText else "") ++ String.ofList b.contents.spelled := by
  have hw := emit_node hb hn 0
  rw [htop, Nat.add_zero] at hw
  rw [write_eq, hw]

theorem write_of_shows {t : Tree Content} (h : d.Shows t) :
    d.write = (if d.declared then declarationText else "") ++ String.ofList t.spelled := by
  obtain ⟨b, ⟨hb, htop, hn⟩, rfl⟩ := h
  exact write_of_branch hb htop hn

section Memory

theorem foldlM_memory (pieces : List String) (held : String) :
    pieces.foldlM Sink.memory.put held = .ok (held ++ String.join pieces) := by
  induction pieces generalizing held with
  | nil => exact congrArg Except.ok String.append_empty.symm
  | cons p ps ih =>
    rw [String.join_cons, ← String.append_assoc, ← ih]
    rfl

/-- Memory refuses nothing, so a drawing is always written. -/
theorem writeTo_memory (d : Drawing) : d.writeTo .memory = .ok d.write := by
  have hfold : d.pieces.foldlM Sink.memory.put Sink.memory.start = .ok d.write :=
    (foldlM_memory d.pieces "").trans (congrArg Except.ok String.empty_append)
  rw [writeTo, hfold]
  rfl

end Memory

end Drawing

end FormulaDrawing
