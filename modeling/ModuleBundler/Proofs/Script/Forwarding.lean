import ModuleBundler.Proofs.Script.Cut

/-!
Where the forwarding calls of an item stand.

A forwarding call is written in one way only, and its first token is the only word for the superclass in it. So no
forwarding call stands in another one, and those of a tree stand one behind the other.
-/

namespace ModuleBundler.Script

/-- Runs of tokens that stand one behind the other in a row of tokens. -/
inductive Scattered : List (List Token) → List Token → Prop
  | nil {tokens} : Scattered [] tokens
  | cons {run runs front back} : Scattered runs back → Scattered (run :: runs) (front ++ run ++ back)

namespace Scattered

variable {runs more : List (List Token)} {run tokens front : List Token}

theorem single (tokens : List Token) : Scattered [tokens] tokens := by
  have whole : Scattered [tokens] ([] ++ tokens ++ []) := .cons .nil
  rwa [List.nil_append, List.append_nil] at whole

theorem behind (scattered : Scattered runs tokens) (front : List Token) : Scattered runs (front ++ tokens) := by
  cases scattered with
  | nil => exact .nil
  | cons rest =>
    rw [← List.append_assoc, ← List.append_assoc]
    exact .cons rest

theorem append (scattered : Scattered runs front) (others : Scattered more tokens) :
    Scattered (runs ++ more) (front ++ tokens) := by
  induction scattered with
  | nil => exact others.behind _
  | cons _ ih =>
    rw [List.cons_append, List.append_assoc]
    exact .cons ih

theorem split (scattered : Scattered runs tokens) (member : run ∈ runs) :
    ∃ front back, tokens = front ++ run ++ back := by
  induction scattered with
  | nil => cases member
  | @cons first runs front back _ ih =>
    rcases List.mem_cons.mp member with rfl | later
    · exact ⟨front, back, rfl⟩
    · obtain ⟨between, rest, rfl⟩ := ih later
      exact ⟨front ++ first ++ between, rest, by simp⟩

/-- All that stands in a later run stands behind an earlier one. -/
theorem pairwise (scattered : Scattered runs tokens) :
    runs.Pairwise fun a b => ∃ front back, tokens = front ++ a ++ back ∧ ∀ t ∈ b, t ∈ back := by
  induction scattered with
  | nil => exact .nil
  | @cons first runs front back rest ih =>
    refine .cons (fun run later => ⟨front, back, rfl, fun t member => ?_⟩) (ih.imp ?_)
    · obtain ⟨between, behind, rfl⟩ := rest.split later
      simp [member]
    · rintro a b ⟨before, behind, rfl, inside⟩
      exact ⟨front ++ first ++ before, behind, by simp, inside⟩

end Scattered

namespace Module

/-- The forwarding calls among some calls. -/
def forwardingOf (calls : List Tree) : List (List Token) := (calls.filter isForwarding).map Tree.leaves

/-- The tokens of a forwarding call: the word for the superclass, a parenthesis, what it hands on, and a
parenthesis. -/
theorem isForwarding_leaves {call : Tree} (h : isForwarding call = true) :
    ∃ first opener held closer, call.leaves = first :: opener :: (held ++ [closer]) ∧
      first.lexeme = .keyword .super_ ∧
      opener.lexeme = .mark .parenL ∧ (∀ t ∈ held, Lexer.Situation.Passes t.lexeme) ∧
          closer.lexeme = .mark .parenR := by
  unfold isForwarding at h
  simp only [Bool.or_eq_true, decide_eq_true_eq, List.cons_append, List.nil_append] at h
  generalize call.leaves = tokens at h
  simp only [List.map_eq_cons_iff, List.map_eq_nil_iff] at h
  rcases h with short | long
  · obtain ⟨first, _, rfl, isSuper, opener, _, rfl, opens, dots, _, rfl, isDots, name, _, rfl, isName,
      closer, _, rfl, closes, rfl⟩ := short
    refine ⟨first, opener, [dots, name], closer, rfl, isSuper, opens, ?_, closes⟩
    simp [Lexer.Situation.Passes, isDots, isName]
  · obtain ⟨first, _, rfl, isSuper, opener, _, rfl, opens, dots, _, rfl, isDots, name, _, rfl, isName,
      comma, _, rfl, isComma, closer, _, rfl, closes, rfl⟩ := long
    refine ⟨first, opener, [dots, name, comma], closer, rfl, isSuper, opens, ?_, closes⟩
    simp [Lexer.Situation.Passes, isDots, isName, isComma]

/-- Only the first token of a forwarding call is the word for the superclass. -/
theorem not_super_of_tail {call : Tree} {first t : Token} {rest : List Token} (h : isForwarding call = true)
    (leaves : call.leaves = first :: rest) (member : t ∈ rest) : t.lexeme ≠ .keyword .super_ := by
  obtain ⟨_, opener, held, closer, same, _, opens, passes, closes⟩ := isForwarding_leaves h
  rw [leaves] at same
  cases same
  rcases List.mem_cons.mp member with rfl | member
  · rw [opens]
    decide
  · rcases List.mem_append.mp member with inside | last
    · rcases passes t inside with here | here | here <;> simp [here]
    · rw [List.mem_singleton.mp last, closes]
      decide

theorem mem_forwardingOf {calls : List Tree} {run : List Token} (member : run ∈ forwardingOf calls) :
    ∃ call ∈ calls, isForwarding call = true ∧ call.leaves = run := by
  obtain ⟨call, kept, same⟩ := List.mem_map.mp member
  obtain ⟨member, forwards⟩ := List.mem_filter.mp kept
  exact ⟨call, member, forwards, same⟩

/-- No forwarding call stands behind the first token of another one. -/
theorem forwardingOf_tail {first : Token} {rest : List Tree}
    (forwards : isForwarding (.node .superCall (.leaf first :: rest)) = true)
    (inner : Scattered (forwardingOf (Tree.nodesOfAll .superCall rest)) (Tree.leavesOf rest)) :
    forwardingOf (Tree.nodesOfAll .superCall rest) = [] := by
  by_contra some_
  obtain ⟨run, member⟩ := List.exists_mem_of_ne_nil _ some_
  obtain ⟨front, back, eq⟩ := inner.split member
  obtain ⟨call, _, forwarding, rfl⟩ := mem_forwardingOf member
  obtain ⟨head, _, _, _, leaves, isSuper, _⟩ := isForwarding_leaves forwarding
  refine not_super_of_tail (t := head) forwards rfl ?_ isSuper
  rw [eq, leaves]
  simp

mutual

/-- The forwarding calls of a tree stand one behind the other. -/
theorem scattered_nodesOf : (tree : Tree) → tree.isHeaded = true →
    Scattered (forwardingOf (tree.nodesOf .superCall)) tree.leaves
  | .leaf _, _ => .nil
  | .node kind [], _ => by
    rw [Tree.nodesOf, Tree.nodesOfAll]
    split
    · next isCall => simp [forwardingOf, isForwarding, Tree.leaves, Tree.leavesOf, Scattered.nil]
    · exact .nil
  | .node kind (child :: rest), headed => by
    rw [Tree.isHeaded, Bool.and_eq_true, Tree.areHeaded, Bool.and_eq_true] at headed
    obtain ⟨head, headedChild, headedRest⟩ := headed
    have inChild := scattered_nodesOf child headedChild
    have inRest := scattered_nodesOfAll rest headedRest
    have inner : Scattered (forwardingOf (Tree.nodesOfAll .superCall (child :: rest)))
        (Tree.leavesOf (child :: rest)) := by
      rw [Tree.nodesOfAll, Tree.leavesOf, forwardingOf, List.filter_append, List.map_append]
      exact inChild.append inRest
    rw [Tree.nodesOf, Tree.leaves]
    split
    · next isCall =>
      by_cases forwards : isForwarding (.node kind (child :: rest)) = true
      · cases child with
        | node => simp [isCall] at head
        | leaf first =>
          subst isCall
          have none : forwardingOf (Tree.nodesOfAll .superCall (.leaf first :: rest)) = [] := by
            rw [Tree.nodesOfAll, Tree.nodesOf, List.nil_append]
            exact forwardingOf_tail forwards inRest
          rw [forwardingOf, List.filter_cons_of_pos forwards, List.map_cons, ← forwardingOf, none, Tree.leaves]
          exact .single _
      · rw [forwardingOf, List.filter_cons_of_neg forwards]
        exact inner
    · exact inner

theorem scattered_nodesOfAll : (trees : List Tree) → Tree.areHeaded trees = true →
    Scattered (forwardingOf (Tree.nodesOfAll .superCall trees)) (Tree.leavesOf trees)
  | [], _ => .nil
  | tree :: trees, headed => by
    rw [Tree.areHeaded, Bool.and_eq_true] at headed
    rw [Tree.nodesOfAll, Tree.leavesOf, forwardingOf, List.filter_append, List.map_append]
    exact (scattered_nodesOf tree headed.1).append (scattered_nodesOfAll trees headed.2)

end

end Module

end ModuleBundler.Script
