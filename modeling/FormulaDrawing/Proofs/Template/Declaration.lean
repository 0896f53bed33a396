import Mathlib
import FormulaDrawing.Template.Declaration

/-! What an extraction finds. Declarations found earlier stay, and every marked element with a name and
an identifier is declared in the end. -/

namespace FormulaDrawing

theorem Declaration.listed_iff {d : Declaration} {ds : List Declaration} :
    d.listed ds = true ↔ ∃ x ∈ ds, x.key = d.key := by
  simp [listed]

theorem Declaration.listed_of_prefix {d : Declaration} {ds es : List Declaration}
    (h : ds <+: es) (hd : d.listed ds = true) : d.listed es = true := by
  obtain ⟨x, hx, hk⟩ := listed_iff.1 hd
  exact listed_iff.2 ⟨x, h.subset hx, hk⟩

namespace Extraction

variable {s : Settings} {d : Drawing} {x : Extraction} {h : Handle} {hs : List Handle}
  {name id : String}

theorem template_take (s : Settings) (d : Drawing) (x : Extraction) (h : Handle) :
    (take s d x h).template = x.template := by
  unfold take
  split
  · rfl
  · rfl
  · dsimp only
    split <;> rfl

theorem prefix_take (s : Settings) (d : Drawing) (x : Extraction) (h : Handle) :
    x.declarations <+: (take s d x h).declarations := by
  unfold take
  split
  · exact List.prefix_rfl
  · exact List.prefix_rfl
  · dsimp only
    split
    · exact List.prefix_rfl
    · exact List.prefix_append ..

theorem template_of_mem_take (hx : ∀ y ∈ x.declarations, y.template = x.template) :
    ∀ y ∈ (take s d x h).declarations, y.template = x.template := by
  unfold take
  split
  · exact hx
  · exact hx
  · dsimp only
    split
    · exact hx
    · intro y hy
      rcases List.mem_append.1 hy with hy | hy
      · exact hx y hy
      · rw [List.mem_singleton.1 hy]

theorem key_mem_take (hname : d.formulaName? s.labels h = some name) (hid : d.id? h = some id) :
    ∃ y ∈ (take s d x h).declarations, y.key = (name, id, x.template) := by
  unfold take
  rw [hname, hid]
  dsimp only
  split
  next hl => exact Declaration.listed_iff.1 hl
  next => exact ⟨_, List.mem_append_right _ (List.mem_singleton_self _), rfl⟩

theorem prefix_foldl_take (s : Settings) (d : Drawing) (x : Extraction) (hs : List Handle) :
    x.declarations <+: (hs.foldl (take s d) x).declarations := by
  induction hs generalizing x with
  | nil => exact List.prefix_rfl
  | cons h hs ih =>
    rw [List.foldl_cons]
    exact (prefix_take s d x h).trans (ih (take s d x h))

theorem template_of_mem_foldl_take (hx : ∀ y ∈ x.declarations, y.template = x.template) :
    ∀ y ∈ (hs.foldl (take s d) x).declarations, y.template = x.template := by
  induction hs generalizing x with
  | nil => exact hx
  | cons h hs ih =>
    rw [List.foldl_cons]
    have hstep := template_of_mem_take (s := s) (d := d) (h := h) hx
    rw [← template_take s d x h] at hstep ⊢
    exact ih hstep

theorem key_mem_foldl_take (hh : h ∈ hs) (hname : d.formulaName? s.labels h = some name)
    (hid : d.id? h = some id) :
    ∃ y ∈ (hs.foldl (take s d) x).declarations, y.key = (name, id, x.template) := by
  induction hs generalizing x with
  | nil => cases hh
  | cons k hs ih =>
    rw [List.foldl_cons]
    rcases List.mem_cons.1 hh with rfl | hh
    · obtain ⟨y, hy, hk⟩ := key_mem_take (x := x) hname hid
      exact ⟨y, (prefix_foldl_take s d _ hs).subset hy, hk⟩
    · have hrest := ih (x := take s d x k) hh
      rwa [template_take] at hrest

theorem key_mem_ofDrawing (template : String) (hh : h ∈ d.marked s.markerClass)
    (hname : d.formulaName? s.labels h = some name) (hid : d.id? h = some id) :
    ∃ y ∈ (ofDrawing s template d).declarations, y.key = (name, id, template) :=
  key_mem_foldl_take hh hname hid

theorem template_of_mem_ofDrawing {template : String} {y : Declaration}
    (hy : y ∈ (ofDrawing s template d).declarations) : y.template = template :=
  template_of_mem_foldl_take (x := { template }) nofun y hy

end Extraction

end FormulaDrawing
