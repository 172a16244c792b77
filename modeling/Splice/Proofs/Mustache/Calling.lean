import Splice.Proofs.Mustache.Embedding

/-!
# Which templates a template calls for

Rendering comes to the tags of a template one after the other, those of a part as often as the part
is rendered. The templates that it calls for on the way are settled by the template and its
variables; no template has to be loaded to find them.

* `Mustache.calledBy` — the keys of the templates that are called for;
* `Mustache.renderNodes_succeeds_iff` — rendering succeeds if they can be loaded; and
* `Mustache.mem_calledBy_of_embeds` — if they are empty, no others are embedded.
-/

namespace Splice.Mustache

variable {ε : Type}

mutual

/-- The keys of the templates that a node calls for when it is rendered for a scope, in order. -/
def Node.called (scope : Scope) : Node → List Text
  | .text _ | .escaped _ | .unescaped _ => []
  | .block key body => (blockItems scope key).flatMap fun item => calledBy (item :: scope) body
  | .inverse key body =>
      if ((lookup? scope key).map isTruthy).getD false then [] else calledBy scope body
  | .embed key _ => [key]

/-- The keys of the templates that nodes call for. -/
def calledBy (scope : Scope) : List Node → List Text
  | [] => []
  | node :: nodes => node.called scope ++ calledBy scope nodes

end

variable {env : Environment ε} {embed : Scope → Text → Rendered ε} {scope : Scope}
  {nodes : List Node} {node : Node} {key : Text}

theorem called_subset (h : node ∈ nodes) : node.called scope ⊆ calledBy scope nodes := by
  induction nodes with
  | nil => cases h
  | cons first nodes ih =>
    rw [calledBy]
    rcases List.mem_cons.mp h with heq | h
    · rw [heq]
      exact List.subset_append_left _ _
    · exact List.Subset.trans (ih h) (List.subset_append_right _ _)

/-! ### Success -/

/-- The outcome is a text. -/
def Rendered.Succeeds (outcome : Rendered ε) : Prop := ∃ text, outcome = some (.ok text)

theorem Rendered.succeeds_ok (text : Text) : Succeeds (some (.ok text) : Rendered ε) := ⟨text, rfl⟩

theorem Rendered.append_succeeds_iff {first : Rendered ε} {second : Unit → Rendered ε} :
    (first.append second).Succeeds ↔ first.Succeeds ∧ (second ()).Succeeds := by
  rcases first with _ | e | text
  · simp [append, Succeeds]
  · simp [append, Succeeds]
  · rcases hsecond : second () with _ | e | rest <;> simp [append, Succeeds, hsecond, Except.map]

theorem renderEach_succeeds_iff {render : Json → Rendered ε} {items : List Json} :
    (renderEach render items).Succeeds ↔ ∀ item ∈ items, (render item).Succeeds := by
  induction items with
  | nil => simp [renderEach, Rendered.succeeds_ok]
  | cons item items ih => simp [renderEach, Rendered.append_succeeds_iff, ih]

mutual

theorem Node.render_succeeds_iff
    (hembed : ∀ scope key text indent, env.load key = .ok text →
      (embed scope (indentLines indent text)).Succeeds) :
    (node : Node) → (scope : Scope) →
      ((node.render env embed scope).Succeeds ↔
        ∀ key ∈ node.called scope, ∃ text, env.load key = .ok text)
  | .text _, _ => by simp [Node.render, Node.called, Rendered.succeeds_ok]
  | .escaped _, _ => by simp [Node.render, Node.called, Rendered.succeeds_ok]
  | .unescaped _, _ => by simp [Node.render, Node.called, Rendered.succeeds_ok]
  | .block key body, scope => by
      simp only [Node.render, Node.called, renderEach_succeeds_iff, List.mem_flatMap]
      constructor
      · intro h other hother
        obtain ⟨item, hitem, hbody⟩ := hother
        exact (renderNodes_succeeds_iff hembed body (item :: scope)).mp (h item hitem) other hbody
      · intro h item hitem
        exact (renderNodes_succeeds_iff hembed body (item :: scope)).mpr fun other hother =>
          h other ⟨item, hitem, hother⟩
  | .inverse key body, scope => by
      simp only [Node.render, Node.called]
      split
      · simp [Rendered.succeeds_ok]
      · exact renderNodes_succeeds_iff hembed body scope
  | .embed key indent, scope => by
      simp only [Node.render, Node.called, List.mem_singleton, forall_eq]
      cases hload : env.load key with
      | error e => simp [Rendered.Succeeds]
      | ok text => simp [hembed scope key text indent hload]

/-- If templates can be rendered where they are embedded, nodes can be rendered just if the
templates can be loaded that they call for. -/
theorem renderNodes_succeeds_iff
    (hembed : ∀ scope key text indent, env.load key = .ok text →
      (embed scope (indentLines indent text)).Succeeds) :
    (nodes : List Node) → (scope : Scope) →
      ((renderNodes env embed scope nodes).Succeeds ↔
        ∀ key ∈ calledBy scope nodes, ∃ text, env.load key = .ok text)
  | [], _ => by simp [renderNodes, calledBy, Rendered.succeeds_ok]
  | node :: nodes, scope => by
      rw [renderNodes, calledBy, Rendered.append_succeeds_iff, List.forall_mem_append,
        Node.render_succeeds_iff hembed node scope, renderNodes_succeeds_iff hembed nodes scope]

end

/-! ### Empty templates -/

theorem parse_nil : parse [] = .ok [] := rfl

theorem renderIn_nil (env : Environment ε) (fuel : Nat) (scope : Scope) :
    renderIn env (fuel + 1) scope [] = some (.ok []) := by
  simp only [renderIn, parse_nil, renderNodes]

/-- If the templates are empty that are called for, no others are embedded. -/
theorem mem_calledBy_of_embeds (h : Embeds env scope nodes key)
    (hempty : ∀ other ∈ calledBy scope nodes, env.load other = .ok []) :
    key ∈ calledBy scope nodes := by
  induction h with
  | here hmem => exact called_subset hmem (by simp [Node.called])
  | @inside scope nodes inner other indent text key hmem hload hparse hinner =>
    have hother : env.load other = .ok [] :=
      hempty other (called_subset hmem (by simp [Node.called]))
    -- An empty template embeds nothing itself.
    have htext : text = [] := Except.ok.inj (hload.symm.trans hother)
    subst htext
    have hnil : inner = [] := Except.ok.inj (hparse.symm.trans parse_nil)
    subst hnil
    cases hinner with
    | here hmem => cases hmem
    | inside hmem => cases hmem
    | block hmem => cases hmem
    | inverse hmem => cases hmem
  | @block scope nodes body name key item hmem hitem _ ih =>
    have hcalled : calledBy (item :: scope) body ⊆ calledBy scope nodes := by
      refine fun other hother => called_subset hmem ?_
      rw [Node.called]
      exact List.mem_flatMap.mpr ⟨item, hitem, hother⟩
    exact hcalled (ih fun other hother => hempty other (hcalled hother))
  | @inverse scope nodes body name key hmem hvalue _ ih =>
    have hcalled : calledBy scope body ⊆ calledBy scope nodes := by
      refine fun other hother => called_subset hmem ?_
      rw [Node.called, hvalue]
      exact hother
    exact hcalled (ih fun other hother => hempty other (hcalled hother))

end Splice.Mustache
