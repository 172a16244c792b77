import Splice.Proofs.Mustache.Rendering

/-!
# Which templates are embedded

Rendering a template depends on the templates that it embeds, on those that these embed, and so on,
and on no others.

* `Mustache.Embeds` — the keys of the templates that are embedded when nodes are rendered; and
* `Mustache.render_congr` — what a template is rendered to depends on these only.
-/

namespace Splice.Mustache

variable {ε : Type}

/-- The template with this key is embedded when the nodes are rendered for a scope. -/
inductive Embeds (env : Environment ε) : Scope → List Node → Text → Prop
  /-- It is embedded by a node. -/
  | here {scope : Scope} {nodes : List Node} {key indent : Text} :
      .embed key indent ∈ nodes → Embeds env scope nodes key
  /-- It is embedded by a template that is embedded itself. -/
  | inside {scope : Scope} {nodes inner : List Node} {other indent text key : Text} :
      .embed other indent ∈ nodes → env.load other = .ok text →
      parse (indentLines indent text) = .ok inner → Embeds env scope inner key →
      Embeds env scope nodes key
  /-- It is embedded in a part that is rendered for an item. -/
  | block {scope : Scope} {nodes body : List Node} {name key : Text} {item : Json} :
      .block name body ∈ nodes → item ∈ blockItems scope name →
      Embeds env (item :: scope) body key →
      Embeds env scope nodes key
  /-- It is embedded in a part that is rendered since its key has no value. -/
  | inverse {scope : Scope} {nodes body : List Node} {name key : Text} :
      .inverse name body ∈ nodes → ((lookup? scope name).map isTruthy).getD false = false →
      Embeds env scope body key → Embeds env scope nodes key

variable {env env' : Environment ε} {scope : Scope} {nodes more : List Node} {key : Text}

theorem Embeds.mono (h : Embeds env scope nodes key) (hmore : nodes ⊆ more) :
    Embeds env scope more key := by
  cases h with
  | here hmem => exact .here (hmore hmem)
  | inside hmem hload hparse hinner => exact .inside (hmore hmem) hload hparse hinner
  | block hmem hitem hbody => exact .block (hmore hmem) hitem hbody
  | inverse hmem hvalue hbody => exact .inverse (hmore hmem) hvalue hbody

/-- A template of which only text is left embeds nothing. -/
theorem not_embeds_text {t : Text} : ¬ Embeds env scope [.text t] key := by
  intro h
  cases h with
  | here hmem => cases List.mem_singleton.mp hmem
  | inside hmem => cases List.mem_singleton.mp hmem
  | block hmem => cases List.mem_singleton.mp hmem
  | inverse hmem => cases List.mem_singleton.mp hmem

/-- A template that embeds another one, which embeds nothing. -/
theorem eq_of_embeds_embed {name indent : Text} (h : Embeds env scope [.embed name indent] key)
    (htext : ∀ text inner, env.load name = .ok text → parse (indentLines indent text) = .ok inner →
      ∃ t, inner = [.text t]) : key = name := by
  cases h with
  | here hmem =>
    cases List.mem_singleton.mp hmem
    rfl
  | inside hmem hload hparse hinner =>
    cases List.mem_singleton.mp hmem
    obtain ⟨t, rfl⟩ := htext _ _ hload hparse
    exact absurd hinner not_embeds_text
  | block hmem => cases List.mem_singleton.mp hmem
  | inverse hmem => cases List.mem_singleton.mp hmem

theorem Rendered.append_congr {first first' : Rendered ε} {second second' : Unit → Rendered ε}
    (hfirst : first' = first) (hsecond : second' () = second ()) :
    first'.append second' = first.append second := by
  rw [hfirst]
  unfold append
  split
  · rfl
  · rfl
  · rw [hsecond]

theorem renderEach_congr {render render' : Json → Rendered ε} {items : List Json}
    (h : ∀ item ∈ items, render' item = render item) :
    renderEach render' items = renderEach render items := by
  induction items with
  | nil => rfl
  | cons item items ih =>
    obtain ⟨hitem, hitems⟩ := List.forall_mem_cons.mp h
    exact Rendered.append_congr hitem (ih hitems)

/-- The same templates are loaded, where they are embedded. -/
def Agrees (env env' : Environment ε) (scope : Scope) (nodes : List Node) : Prop :=
  ∀ key, Embeds env scope nodes key → env'.load key = env.load key

theorem Agrees.mono (h : Agrees env env' scope more) (hmore : nodes ⊆ more) :
    Agrees env env' scope nodes :=
  fun key hkey => h key (hkey.mono hmore)

section

variable {embed embed' : Scope → Text → Rendered ε}

/-- The embedded templates that are rendered have the same text. -/
def EmbedsAlike (env env' : Environment ε) (embed embed' : Scope → Text → Rendered ε) : Prop :=
  ∀ scope text, (∀ nodes, parse text = .ok nodes → Agrees env env' scope nodes) →
    embed' scope text = embed scope text

mutual

theorem Node.render_congr (hescaping : env'.escaping = env.escaping)
    (hembed : EmbedsAlike env env' embed embed') :
    (node : Node) → (scope : Scope) → Agrees env env' scope [node] →
      node.render env' embed' scope = node.render env embed scope
  | .text _, _, _ => by simp only [Node.render]
  | .escaped _, _, _ => by simp only [Node.render, hescaping]
  | .unescaped _, _, _ => by simp only [Node.render]
  | .block key body, scope, h => by
      simp only [Node.render]
      refine renderEach_congr fun item hitem => ?_
      exact renderNodes_congr hescaping hembed body (item :: scope) fun other hother =>
        h other (.block List.mem_cons_self hitem hother)
  | .inverse key body, scope, h => by
      simp only [Node.render]
      split
      · rfl
      · rename_i hvalue
        exact renderNodes_congr hescaping hembed body scope fun other hother =>
          h other (.inverse List.mem_cons_self (Bool.eq_false_iff.mpr hvalue) hother)
  | .embed key indent, scope, h => by
      simp only [Node.render, h key (.here List.mem_cons_self)]
      split
      · rfl
      · rename_i text hload
        exact hembed scope _ fun inner hparse other hother =>
          h other (.inside List.mem_cons_self hload hparse hother)

theorem renderNodes_congr (hescaping : env'.escaping = env.escaping)
    (hembed : EmbedsAlike env env' embed embed') :
    (nodes : List Node) → (scope : Scope) → Agrees env env' scope nodes →
      renderNodes env' embed' scope nodes = renderNodes env embed scope nodes
  | [], _, _ => by simp only [renderNodes]
  | node :: nodes, scope, h => by
      simp only [renderNodes]
      refine Rendered.append_congr ?_ ?_
      · exact Node.render_congr hescaping hembed node scope (h.mono (by simp))
      · exact renderNodes_congr hescaping hembed nodes scope (h.mono (by simp))

end

end

/-- What a template is rendered to depends on the templates that are embedded. -/
theorem render_congr (hescaping : env'.escaping = env.escaping)
    (hmalformed : env'.malformed = env.malformed) (fuel : Nat) (bindings : Bindings Json)
    (template : Text) (h : ∀ nodes, parse template = .ok nodes →
      Agrees env env' [.obj bindings] nodes) :
    render env' fuel bindings template = render env fuel bindings template := by
  have hembed (fuel : Nat) : EmbedsAlike env env' (renderIn env fuel) (renderIn env' fuel) := by
    induction fuel with
    | zero => exact fun _ _ _ => rfl
    | succ fuel ih =>
      intro scope text hagrees
      simp only [renderIn, hmalformed]
      split
      · rfl
      · rename_i nodes hparse
        exact renderNodes_congr hescaping ih nodes scope (hagrees nodes hparse)
  exact hembed fuel _ _ h

end Splice.Mustache
