import FormulaDrawing.Engine.Basic
import FormulaDrawing.Proofs.Template.Registry

/-! Engines with a history. Every engine has come from an empty one by some list of actions, each of which
leaves it as it was where it fails. -/

namespace FormulaDrawing.Engine

inductive Action where
  | add (t : Template)
  | update (id source : String)
  | remove (id : String)
  | extractAll
  /-- Done to the registry, with any settings. -/
  | extract (s : Settings) (id : String)
  /-- Done to the registry. -/
  | insert (d : Declaration)

variable {e : Engine}

/-- The engine that an action gives, or the old one if it gives none. -/
def orSame {ε α : Type} (e : Engine) : Except ε (Engine × α) → Engine
  | .ok (next, _) => next
  | .error _ => e

def onRegistry {ε α : Type} (e : Engine) (x : Except ε (Registry × α)) : Except ε (Engine × α) :=
  x.map fun (r, a) => ({ e with registry := r }, a)

def after (e : Engine) : Action → Engine
  | .add t => e.orSame (e.add t)
  | .update id source => e.orSame (e.update id source)
  | .remove id => e.remove id
  | .extractAll => e.extractAll.1
  | .extract s id => e.orSame (e.onRegistry (e.registry.extract s id))
  | .insert d => e.orSame (e.onRegistry (e.registry.insertIfAbsent d))

def Reachable (e : Engine) : Prop :=
  ∃ (settings : Settings) (rasterizer : Raster.Rasterizer) (actions : List Action),
    e = actions.foldl after { settings, rasterizer }

/-- Every template is ready under the settings of the engine. -/
def Sound (e : Engine) : Prop := e.registry.Sound e.settings

theorem sound_orSame_onRegistry {ε α : Type} {x : Except ε (Registry × α)} (he : e.Sound)
    (hx : ∀ r a, x = .ok (r, a) → r.Sound e.settings) : (e.orSame (e.onRegistry x)).Sound := by
  cases x with
  | error failure => exact he
  | ok p => exact hx p.1 p.2 rfl

theorem sound_extractStep {results : List (Except Registry.Failure Extraction)} (he : e.Sound)
    (id : String) : (extractStep (e, results) id).1.Sound := by
  dsimp only [extractStep]
  split
  next r x h => exact Registry.Sound.of_grows he (Registry.grows_extract he.nodup h)
  next => exact he

theorem sound_extractAll (he : e.Sound) : e.extractAll.1.Sound := by
  have hfold : ∀ (ids : List String) (p : Engine × List (Except Registry.Failure Extraction)),
      p.1.Sound → (ids.foldl extractStep p).1.Sound := by
    intro ids
    induction ids with
    | nil => exact fun _ h => h
    | cons id ids ih => exact fun p hp => ih _ (sound_extractStep hp id)
  exact hfold e.registry.ids (e, []) he

theorem sound_after (he : e.Sound) (a : Action) : (e.after a).Sound := by
  cases a with
  | add t => exact sound_orSame_onRegistry he fun _ _ h => Registry.sound_registerAndExtract he h
  | update id source => exact sound_orSame_onRegistry he fun _ _ h => Registry.sound_update he h
  | remove id => exact Registry.sound_remove he id
  | extractAll => exact sound_extractAll he
  | extract s id =>
    exact sound_orSame_onRegistry he fun _ _ h =>
      Registry.Sound.of_grows he (Registry.grows_extract he.nodup h)
  | insert d =>
    exact sound_orSame_onRegistry he fun _ _ h =>
      Registry.Sound.of_grows he (Registry.grows_insertIfAbsent h)

theorem Reachable.sound (h : e.Reachable) : e.Sound := by
  obtain ⟨settings, rasterizer, actions, rfl⟩ := h
  induction actions using List.reverseRecOn with
  | nil => exact ⟨List.nodup_nil, nofun⟩
  | append_singleton actions a ih =>
    rw [List.foldl_append]
    exact sound_after ih a

end FormulaDrawing.Engine
