import Splice.Proofs.Fuel

/-!
# How rendering ends

Rendering stops only where templates embed each other without end, and it fails only where a
template is malformed or cannot be loaded.

* `Mustache.stable_render` — more fuel does not change a rendered text;
* `Mustache.render_settles` — without templates to embed, rendering ends; and
* `Mustache.render_failsOnly` — the errors with which it can end.
-/

namespace Splice.Mustache

variable {ε : Type}

/-! ### More fuel -/

theorem Rendered.append_mono {first first' : Rendered ε} {second second' : Unit → Rendered ε}
    (hfirst : Approximates first first') (hsecond : Approximates (second ()) (second' ())) :
    Approximates (first.append second) (first'.append second') := by
  intro outcome h
  rcases first with _ | e | text
  · exact absurd h (by simp [append])
  · rw [hfirst _ rfl]
    exact h
  · rw [hfirst _ rfl]
    simp only [append, Option.map_eq_some_iff] at h ⊢
    exact h.imp fun rest hrest => ⟨hsecond rest hrest.1, hrest.2⟩

theorem renderEach_mono {render render' : Json → Rendered ε}
    (h : ∀ item, Approximates (render item) (render' item)) :
    (items : List Json) → Approximates (renderEach render items) (renderEach render' items)
  | [] => .refl _
  | item :: items => Rendered.append_mono (h item) (renderEach_mono h items)

section

variable {env : Environment ε} {embed embed' : Scope → Text → Rendered ε}

mutual

theorem Node.render_mono (h : ∀ scope text, Approximates (embed scope text) (embed' scope text)) :
    (node : Node) → (scope : Scope) →
      Approximates (node.render env embed scope) (node.render env embed' scope)
  | .text _, _ => .refl _
  | .escaped _, _ => .refl _
  | .unescaped _, _ => .refl _
  | .block key body, scope => by
      simp only [Node.render]
      exact renderEach_mono (fun item => renderNodes_mono h body (item :: scope)) _
  | .inverse key body, scope => by
      simp only [Node.render]
      split
      · exact .refl _
      · exact renderNodes_mono h body scope
  | .embed key indent, scope => by
      simp only [Node.render]
      split
      · exact .refl _
      · exact h scope _

theorem renderNodes_mono (h : ∀ scope text, Approximates (embed scope text) (embed' scope text)) :
    (nodes : List Node) → (scope : Scope) →
      Approximates (renderNodes env embed scope nodes) (renderNodes env embed' scope nodes)
  | [], _ => .refl _
  | node :: nodes, scope => by
      simp only [renderNodes]
      exact Rendered.append_mono (Node.render_mono h node scope) (renderNodes_mono h nodes scope)

end

end

theorem renderIn_mono (env : Environment ε) {n m : Nat} (hle : n ≤ m) (scope : Scope)
    (template : Text) :
    Approximates (renderIn env n scope template) (renderIn env m scope template) := by
  induction n generalizing m scope template with
  | zero => exact .of_none _
  | succ n ih =>
    obtain ⟨m, rfl⟩ := Nat.exists_eq_add_of_le' (Nat.lt_of_lt_of_le (Nat.succ_pos n) hle)
    simp only [renderIn]
    split
    · exact .refl _
    · exact renderNodes_mono (fun scope text => ih (Nat.le_of_succ_le_succ hle) scope text) _ scope

/-- More fuel does not change what a template is rendered to. -/
theorem stable_render (env : Environment ε) (bindings : Bindings Json) (template : Text) :
    Stable fun fuel => render env fuel bindings template :=
  fun _ _ hle => renderIn_mono env hle _ template

/-! ### Rendering without templates to embed -/

theorem Rendered.append_ne_none {first : Rendered ε} {second : Unit → Rendered ε}
    (hfirst : first ≠ none) (hsecond : second () ≠ none) : first.append second ≠ none := by
  rcases first with _ | e | text
  · exact absurd rfl hfirst
  · simp [append]
  · simpa [append] using hsecond

theorem renderEach_ne_none {render : Json → Rendered ε} (h : ∀ item, render item ≠ none) :
    (items : List Json) → renderEach render items ≠ none
  | [] => by simp [renderEach]
  | item :: items => Rendered.append_ne_none (h item) (renderEach_ne_none h items)

section

variable {env : Environment ε} {embed : Scope → Text → Rendered ε}

mutual

theorem Node.render_ne_none
    (h : ∀ scope key text indent, env.load key = .ok text →
      embed scope (indentLines indent text) ≠ none) :
    (node : Node) → (scope : Scope) → node.render env embed scope ≠ none
  | .text _, _ => by simp [Node.render]
  | .escaped _, _ => by simp [Node.render]
  | .unescaped _, _ => by simp [Node.render]
  | .block key body, scope => by
      simp only [Node.render]
      exact renderEach_ne_none (fun item => renderNodes_ne_none h body (item :: scope)) _
  | .inverse key body, scope => by
      simp only [Node.render]
      split
      · simp
      · exact renderNodes_ne_none h body scope
  | .embed key indent, scope => by
      simp only [Node.render]
      split
      · simp
      · rename_i text hload
        exact h scope key text indent hload

theorem renderNodes_ne_none
    (h : ∀ scope key text indent, env.load key = .ok text →
      embed scope (indentLines indent text) ≠ none) :
    (nodes : List Node) → (scope : Scope) → renderNodes env embed scope nodes ≠ none
  | [], _ => by simp [renderNodes]
  | node :: nodes, scope => by
      simp only [renderNodes]
      exact Rendered.append_ne_none (Node.render_ne_none h node scope)
        (renderNodes_ne_none h nodes scope)

end

end

/-- If all embedded templates are empty, rendering ends. -/
theorem render_settles {env : Environment ε} (hload : ∀ key, env.load key = .ok [])
    (bindings : Bindings Json) (template : Text) :
    ∃ outcome, Settles (fun fuel => render env fuel bindings template) outcome := by
  have hembed : ∀ (scope : Scope) key text indent, env.load key = .ok text →
      renderIn env 1 scope (indentLines indent text) ≠ none := by
    intro scope key text indent h
    rw [hload key] at h
    obtain rfl := Except.ok.inj h
    simp [renderIn, renderNodes, indentLines, indentLines.go, show parse [] = .ok [] by rfl]
  have hrender : render env 2 bindings template ≠ none := by
    simp only [render, renderIn]
    split
    · simp
    · exact renderNodes_ne_none hembed _ _
  obtain ⟨outcome, h⟩ := Option.ne_none_iff_exists'.mp hrender
  exact ⟨outcome, 2, h⟩

/-! ### How rendering fails -/

/-- If the outcome is an error, the error has the property. -/
def Rendered.FailsOnly (P : ε → Prop) (outcome : Rendered ε) : Prop :=
  ∀ e, outcome = some (.error e) → P e

section

variable {P : ε → Prop}

theorem Rendered.failsOnly_ok (text : Text) : FailsOnly P (some (.ok text)) := by
  intro e h
  cases h

theorem Rendered.append_failsOnly {first : Rendered ε} {second : Unit → Rendered ε}
    (hfirst : first.FailsOnly P) (hsecond : (second ()).FailsOnly P) :
    (first.append second).FailsOnly P := by
  intro e h
  rcases first with _ | e' | text
  · cases h
  · cases h
    exact hfirst e rfl
  · obtain ⟨rest, hrest, hmap⟩ := Option.map_eq_some_iff.mp h
    cases rest with
    | error e' =>
      cases hmap
      exact hsecond e hrest
    | ok rest => cases hmap

theorem renderEach_failsOnly {render : Json → Rendered ε} (h : ∀ item, (render item).FailsOnly P) :
    (items : List Json) → (renderEach render items).FailsOnly P
  | [] => Rendered.failsOnly_ok _
  | item :: items => Rendered.append_failsOnly (h item) (renderEach_failsOnly h items)

variable {env : Environment ε} {embed : Scope → Text → Rendered ε}

mutual

theorem Node.render_failsOnly (hload : ∀ key e, env.load key = .error e → P e)
    (hembed : ∀ scope text, (embed scope text).FailsOnly P) :
    (node : Node) → (scope : Scope) → (node.render env embed scope).FailsOnly P
  | .text _, _ => by
      simp only [Node.render]
      exact Rendered.failsOnly_ok _
  | .escaped _, _ => by
      simp only [Node.render]
      exact Rendered.failsOnly_ok _
  | .unescaped _, _ => by
      simp only [Node.render]
      exact Rendered.failsOnly_ok _
  | .block key body, scope => by
      simp only [Node.render]
      exact renderEach_failsOnly
        (fun item => renderNodes_failsOnly hload hembed body (item :: scope)) _
  | .inverse key body, scope => by
      simp only [Node.render]
      split
      · exact Rendered.failsOnly_ok _
      · exact renderNodes_failsOnly hload hembed body scope
  | .embed key indent, scope => by
      simp only [Node.render]
      split
      · rename_i e hkey
        intro e' h
        cases h
        exact hload key e hkey
      · exact hembed scope _

theorem renderNodes_failsOnly (hload : ∀ key e, env.load key = .error e → P e)
    (hembed : ∀ scope text, (embed scope text).FailsOnly P) :
    (nodes : List Node) → (scope : Scope) → (renderNodes env embed scope nodes).FailsOnly P
  | [], _ => by
      simp only [renderNodes]
      exact Rendered.failsOnly_ok _
  | node :: nodes, scope => by
      simp only [renderNodes]
      exact Rendered.append_failsOnly (Node.render_failsOnly hload hembed node scope)
        (renderNodes_failsOnly hload hembed nodes scope)

end

/-- The errors of rendering are those of loading and of malformed templates. -/
theorem render_failsOnly (hload : ∀ key e, env.load key = .error e → P e)
    (hmalformed : ∀ reason, P (env.malformed reason)) (fuel : Nat) (bindings : Bindings Json)
    (template : Text) : (render env fuel bindings template).FailsOnly P := by
  unfold render
  generalize [Json.obj bindings] = scope
  induction fuel generalizing scope template with
  | zero =>
    intro e h
    cases h
  | succ fuel ih =>
    simp only [renderIn]
    split
    · rename_i reason _
      intro e h
      cases h
      exact hmalformed reason
    · exact renderNodes_failsOnly hload (fun scope text => ih text scope) _ scope

end

end Splice.Mustache
