import Mathlib.Data.List.Basic
import ModuleBundler.Proofs.Script.Parser

/-!
What a parser sees decides what it does.

Of the tokens to come a parser sees their lexemes, the ends of lines between them and whether they touch, but not
their places. So a run goes the same way on all tokens that look the same. If it never looks behind the last of
its tokens, it does so whatever stands behind. Such a run is one with an open reader, where a look behind the last
token answers nothing.
-/

namespace ModuleBundler.Script

/-- A token without its place. -/
def Token.bare (t : Token) : Token := ⟨t.lexeme, 0, 0, false⟩

namespace Tree

mutual

/-- A tree without the places of its tokens. -/
def bare : Tree → Tree
  | leaf token => leaf token.bare
  | node kind children => node kind (bareAll children)

def bareAll : List Tree → List Tree
  | [] => []
  | tree :: trees => bare tree :: bareAll trees

end

theorem bareAll_eq_map (trees : List Tree) : bareAll trees = trees.map bare := by
  induction trees with
  | nil => rfl
  | cons tree trees ih => rw [bareAll, ih, List.map_cons]

theorem bareAll_reverse (trees : List Tree) : bareAll trees.reverse = (bareAll trees).reverse := by
  rw [bareAll_eq_map, bareAll_eq_map, List.map_reverse]

theorem leaves_bare : (tree : Tree) → tree.bare.leaves = tree.leaves.map Token.bare
  | leaf token => rfl
  | node kind children => by
    rw [bare, leaves, leaves, leavesOf_eq_flatMap, leavesOf_eq_flatMap, bareAll_eq_map,
      List.flatMap_map, List.map_flatMap]
    exact List.flatMap_congr fun tree member => leaves_bare tree

end Tree

/-- The tokens behind a token, as a parser sees them. -/
def Glimpse.behind : Token → List Token → List Glimpse
  | _, [] => []
  | before, token :: rest => ⟨token.lexeme, token.afterBreak, token.start = before.stop⟩ :: behind token rest

/-- Tokens as a parser sees them from a row that may hold no token. -/
def Glimpse.view (isFresh : Bool) : List Token → List Glimpse
  | [] => []
  | token :: rest => ⟨token.lexeme, token.afterBreak && !isFresh, false⟩ :: behind token rest

namespace Glimpse

/-- What is seen at the beginning of a row of its own. -/
def fresh : List Glimpse → List Glimpse
  | [] => []
  | first :: others => { first with afterBreak := false } :: others

/-- What is seen behind the first token, once that has been moved. -/
def next : List Glimpse → List Glimpse
  | _ :: first :: others => { first with touches := false } :: others
  | _ => []

theorem fresh_prefix {seen more : List Glimpse} (leads : seen <+: more) : fresh seen <+: fresh more := by
  obtain ⟨others, rfl⟩ := leads
  cases seen with
  | nil => exact List.nil_prefix
  | cons first seen => exact ⟨others, rfl⟩

theorem next_prefix {seen more : List Glimpse} (leads : seen <+: more) : next seen <+: next more := by
  obtain ⟨others, rfl⟩ := leads
  rcases seen with _ | ⟨_, _ | ⟨first, seen⟩⟩
  · exact List.nil_prefix
  · exact List.nil_prefix
  · exact ⟨others, rfl⟩

theorem view_true (isFresh : Bool) (tokens : List Token) : view true tokens = fresh (view isFresh tokens) := by
  cases tokens with
  | nil => rfl
  | cons token rest => simp [view, fresh]

theorem view_next (isFresh : Bool) (token : Token) (rest : List Token) :
    view false rest = next (view isFresh (token :: rest)) := by
  cases rest with
  | nil => rfl
  | cons second rest => simp [view, behind, next]

theorem length_behind (before : Token) (tokens : List Token) : (behind before tokens).length = tokens.length := by
  induction tokens generalizing before with
  | nil => rfl
  | cons token rest ih => rw [behind, List.length_cons, ih, List.length_cons]

theorem length_view (isFresh : Bool) (tokens : List Token) : (view isFresh tokens).length = tokens.length := by
  cases tokens with
  | nil => rfl
  | cons token rest => rw [view, List.length_cons, length_behind, List.length_cons]

theorem getElem?_behind (before : Token) (tokens : List Token) (place : Nat) :
    (behind before tokens)[place]? = ((before :: tokens)[place]?).bind fun before =>
      (tokens[place]?).map fun token => ⟨token.lexeme, token.afterBreak, token.start = before.stop⟩ := by
  induction tokens generalizing before place with
  | nil => simp [behind]
  | cons token rest ih =>
    cases place with
    | zero => rfl
    | succ place => simpa [behind] using ih token place

end Glimpse

namespace State

/-- All that a parser can see of the tokens to come. -/
def view (s : State) : List Glimpse := Glimpse.view s.isFresh s.rest

theorem glimpse?_eq_view (s : State) (place : Nat) : s.glimpse? place = s.view[place]? := by
  rcases s with ⟨built, _ | ⟨token, rest⟩⟩
  · cases place <;> rfl
  · cases place with
    | zero => rfl
    | succ place =>
      rw [view, Glimpse.view, List.getElem?_cons_succ, Glimpse.getElem?_behind]
      simp only [glimpse?, List.getElem?_cons_succ]
      cases (token :: rest)[place]? <;> cases rest[place]? <;> rfl

theorem isFresh_bareAll (built : List Tree) (rest : List Token) :
    (⟨Tree.bareAll built, rest⟩ : State).isFresh = (⟨built, rest⟩ : State).isFresh := by
  simp [isFresh, Tree.bareAll_eq_map, Tree.leaves_bare, Function.comp_def]

theorem isFresh_node (kind : Kind) (t : State) (older : List Tree) (rest : List Token) :
    (⟨.node kind t.built.reverse :: older, rest⟩ : State).isFresh =
    (t.isFresh && (⟨older, rest⟩ : State).isFresh) := by
  have inside : (Tree.node kind t.built.reverse).leaves.isEmpty = t.isFresh := by
    rw [Bool.eq_iff_iff, isFresh_iff, List.isEmpty_iff, Tree.leaves, row]
  rw [isFresh, List.all_cons, inside]
  rfl

/-- Whether a parser finds in `t` what it finds in `s`: the same row, and the same tokens to come. To an open
reader more of them may come in `t`. -/
structure Foreshadows (isOpen : Bool) (s t : State) : Prop where
  built : Tree.bareAll s.built = Tree.bareAll t.built
  view : s.view <+: t.view
  whole : isOpen = false → s.rest.length = t.rest.length

variable {isOpen : Bool} {s t u v : State}

theorem isFresh_congr (built : Tree.bareAll s.built = Tree.bareAll t.built) : s.isFresh = t.isFresh := by
  rw [← isFresh_bareAll s.built s.rest, ← isFresh_bareAll t.built t.rest, built]
  rfl

theorem Foreshadows.length_le (sees : s.Foreshadows isOpen t) : s.rest.length ≤ t.rest.length := by
  have shorter := sees.view.length_le
  rwa [State.view, State.view, Glimpse.length_view, Glimpse.length_view] at shorter

theorem Foreshadows.glimpse (sees : s.Foreshadows isOpen t) {place : Nat} (inside : place < s.rest.length) :
    s.glimpse? place = t.glimpse? place := by
  obtain ⟨more, eq⟩ := sees.view
  rw [glimpse?_eq_view, glimpse?_eq_view, ← eq, List.getElem?_append_left]
  rwa [State.view, Glimpse.length_view]

theorem Foreshadows.advance {token : Token} {rest : List Token} (sees : s.Foreshadows isOpen t)
    (first : s.rest = token :: rest) :
    ∃ token' rest', t.rest = token' :: rest' ∧ token.lexeme = token'.lexeme ∧
      Foreshadows isOpen ⟨.leaf token :: s.built, rest⟩ ⟨.leaf token' :: t.built, rest'⟩ := by
  have leads := sees.view
  rw [State.view, State.view, first] at leads
  cases others : t.rest with
  | nil =>
    rw [others] at leads
    exact absurd leads.length_le (by simp [Glimpse.view])
  | cons token' rest' =>
    rw [others] at leads
    have same : token.lexeme = token'.lexeme := by
      obtain ⟨more, eq⟩ := leads
      exact congrArg Glimpse.lexeme (List.cons.inj eq).1
    refine ⟨token', rest', rfl, same, ?_, ?_, fun closed => ?_⟩
    · simp only [Tree.bareAll, Tree.bare, Token.bare, same, sees.built]
    · have later := Glimpse.next_prefix leads
      rwa [← Glimpse.view_next, ← Glimpse.view_next] at later
    · have length := sees.whole closed
      rwa [first, others, List.length_cons, List.length_cons, Nat.add_right_cancel_iff] at length

/-- What a part of the row sees of the tokens to come. -/
theorem Foreshadows.within {part part' : List Tree} (sees : s.Foreshadows isOpen t)
    (same : Tree.bareAll part = Tree.bareAll part')
    (inside : s.isFresh = true → (⟨part, s.rest⟩ : State).isFresh = true) :
    Foreshadows isOpen ⟨part, s.rest⟩ ⟨part', t.rest⟩ := by
  have isFresh : (⟨part, s.rest⟩ : State).isFresh = (⟨part', t.rest⟩ : State).isFresh := isFresh_congr same
  refine ⟨same, ?_, sees.whole⟩
  rw [State.view, State.view, ← isFresh]
  cases begins : (⟨part, s.rest⟩ : State).isFresh with
  | true =>
    rw [Glimpse.view_true s.isFresh, Glimpse.view_true s.isFresh, isFresh_congr sees.built]
    have leads := Glimpse.fresh_prefix sees.view
    rwa [State.view, State.view, isFresh_congr sees.built] at leads
  | false =>
    have old : s.isFresh = false := by
      cases fresh : s.isFresh with
      | false => rfl
      | true =>
        rw [inside fresh] at begins
        cases begins
    have leads := sees.view
    rwa [State.view, State.view, ← isFresh_congr sees.built, old] at leads

/-- Whether a state `s` becomes `u` by what makes `t` of a row of its own, which becomes one tree then. -/
structure Encloses (s t u : State) : Prop where
  rest : u.rest = t.rest
  inside : u.isFresh = true → t.isFresh = true
  unmoved : t.isFresh = true → s.rest = u.rest ∧ s.isFresh = u.isFresh

theorem Encloses.of_moves {part : List Tree} (inner : Moves ⟨part, s.rest⟩ t) (outer : s.Moves u)
    (rest : u.rest = t.rest)
    (inside : u.isFresh = true → t.isFresh = true) : Encloses s t u where
  rest := rest
  inside := inside
  unmoved fresh := by
    obtain ⟨moved, eq, row⟩ := inner.moved
    obtain ⟨rfl⟩ : moved = [] := (List.append_eq_nil_iff.mp (row.symm.trans (t.isFresh_iff.mp fresh))).2
    obtain ⟨moved, eq', row'⟩ := outer.moved
    have same : s.rest = u.rest := eq.trans rest.symm
    obtain rfl : moved = [] := by
      rw [same] at eq'
      exact List.self_eq_append_left.mp eq'
    refine ⟨same, ?_⟩
    rw [Bool.eq_iff_iff, isFresh_iff, isFresh_iff, row', List.append_nil]

theorem Foreshadows.enclose {s' t' u' : State} (outer : s.Foreshadows isOpen s') (inner : t.Foreshadows isOpen t')
    (encloses : Encloses s t u) (encloses' : Encloses s' t' u')
    (same : Tree.bareAll u.built = Tree.bareAll u'.built) :
    u.Foreshadows isOpen u' := by
  refine ⟨same, ?_, encloses.rest ▸ encloses'.rest ▸ inner.whole⟩
  cases fresh : t.isFresh with
  | true =>
    obtain ⟨rest, isFresh⟩ := encloses.unmoved fresh
    obtain ⟨rest', isFresh'⟩ := encloses'.unmoved (isFresh_congr inner.built ▸ fresh)
    rw [State.view, State.view, ← rest, ← isFresh, ← rest', ← isFresh']
    exact outer.view
  | false =>
    have begun : u.isFresh = false := by
      cases isFresh : u.isFresh with
      | false => rfl
      | true =>
        rw [encloses.inside isFresh] at fresh
        cases fresh
    have leads := inner.view
    rw [State.view, State.view, ← isFresh_congr inner.built, fresh] at leads
    rwa [State.view, State.view, ← isFresh_congr same, begun, encloses.rest, encloses'.rest]

/-- Two rows that become one tree each, in front of what is older, go on being alike. -/
theorem Foreshadows.asNode {s' t' : State} {part part' older older' : List Tree} {kind : Kind}
    (outer : s.Foreshadows isOpen s')
    (inner : t.Foreshadows isOpen t') (moved : Moves ⟨part, s.rest⟩ t) (moved' : Moves ⟨part', s'.rest⟩ t')
    (whole : s.Moves ⟨.node kind t.built.reverse :: older, t.rest⟩)
    (whole' : s'.Moves ⟨.node kind t'.built.reverse :: older', t'.rest⟩)
    (same : Tree.bareAll older = Tree.bareAll older') :
    Foreshadows isOpen ⟨.node kind t.built.reverse :: older, t.rest⟩
        ⟨.node kind t'.built.reverse :: older', t'.rest⟩ := by
  refine outer.enclose inner (.of_moves moved whole rfl fun fresh => ?_)
    (.of_moves moved' whole' rfl fun fresh => ?_) ?_
  · exact (Bool.and_eq_true_iff.mp (isFresh_node _ t _ _ ▸ fresh)).1
  · exact (Bool.and_eq_true_iff.mp (isFresh_node _ t' _ _ ▸ fresh)).1
  · simp only [Tree.bareAll, Tree.bare, Tree.bareAll_reverse, inner.built, same]

end State

/-- Whether an outcome settles what comes of another run: one that sees the same tokens, and
perhaps more behind them. -/
def Outcome.Foretells {α : Type} (isOpen : Bool) (outcome second : Outcome α) : Prop :=
  match outcome with
  | found a s => ∃ t, second = found a t ∧ s.Foreshadows isOpen t
  | refused => second = refused
  | unknown => True

/-- Whether the rules that may be called settle what those of another reader do: an open reader whatever stands
behind the tokens to come, another one if nothing does. -/
structure Reader.Foretells (r r' : Reader) : Prop where
  closed : r.isOpen = false → r'.isOpen = false
  moves : r.Moves
  moves' : r'.Moves
  call (α : Type) (rule : Rule α) (s t : State) (sees : s.Foreshadows r.isOpen t) :
    (r.call rule s).Foretells r.isOpen (r'.call rule t)

theorem Outcome.Foretells.andThen {α β : Type} {isOpen : Bool} {outcome second : Outcome α}
    {f f' : α → State → Outcome β}
    (first : outcome.Foretells isOpen second) (next : ∀ a s t, outcome = .found a s → second = .found a t →
      s.Foreshadows isOpen t → (f a s).Foretells isOpen (f' a t)) :
    (outcome.andThen f).Foretells isOpen (second.andThen f') := by
  cases outcome with
  | found a s =>
    obtain ⟨t, rfl, sees⟩ := first
    exact next a s t rfl rfl sees
  | refused =>
    obtain rfl : second = .refused := first
    rfl
  | unknown => trivial

namespace Parser

variable {α : Type} {r r' : Reader} {s t : State}

theorem foretells_peek (closed : r.isOpen = false → r'.isOpen = false)
    (sees : s.Foreshadows r.isOpen t) (place : Nat) :
    ((peek place).run r s).Foretells r.isOpen ((peek place).run r' t) := by
  rw [run, run]
  by_cases inside : place < s.rest.length
  · have inside' := Nat.lt_of_lt_of_le inside sees.length_le
    rw [if_neg (by simp [inside]), if_neg (by simp [inside'])]
    exact ⟨t, by rw [sees.glimpse inside], sees⟩
  · have behind : s.rest.length ≤ place := by omega
    cases isOpen : r.isOpen with
    | true =>
      rw [if_pos (by simpa using behind)]
      trivial
    | false =>
      rw [isOpen] at sees
      rw [closed isOpen, if_neg (by simp), if_neg (by simp)]
      have nothing : s.glimpse? place = none := by
        rw [State.glimpse?_eq_view, List.getElem?_eq_none_iff, State.view, Glimpse.length_view]
        exact behind
      have nothing' : t.glimpse? place = none := by
        rw [State.glimpse?_eq_view, List.getElem?_eq_none_iff, State.view, Glimpse.length_view, ← sees.whole rfl]
        exact behind
      exact ⟨t, by rw [nothing, nothing'], sees⟩

theorem foretells_advance (closed : r.isOpen = false → r'.isOpen = false) (sees : s.Foreshadows r.isOpen t) :
    (advance.run r s).Foretells r.isOpen (advance.run r' t) := by
  rw [run, run]
  cases eq : s.rest with
  | nil =>
    cases isOpen : r.isOpen with
    | true => trivial
    | false =>
      have none : t.rest = [] := by
        rw [← List.length_eq_zero_iff, ← sees.whole isOpen, eq, List.length_nil]
      rw [none, closed isOpen]
      rfl
  | cons token rest =>
    obtain ⟨token', rest', eq', same, sees'⟩ := sees.advance eq
    simp only [eq', ← same, ← State.isFresh_congr sees.built]
    split
    · rfl
    · exact ⟨_, rfl, sees'⟩

theorem foretells_rounds {isOpen : Bool} {step step' : α → State → Outcome (Option α)} {number number' : Nat}
    (steps : ∀ a s t, s.Foreshadows isOpen t → (step a s).Foretells isOpen (step' a t))
    (fewer : number ≤ number') (a : α)
    (sees : s.Foreshadows isOpen t) : (rounds step number a s).Foretells isOpen (rounds step' number' a t) := by
  induction number generalizing number' a s t with
  | zero => trivial
  | succ number ih =>
    obtain ⟨number', rfl⟩ := Nat.exists_eq_succ_of_ne_zero (Nat.ne_of_gt (Nat.lt_of_lt_of_le (Nat.succ_pos _) fewer))
    refine (steps a s t sees).andThen fun next s t _ _ sees => ?_
    cases next with
    | some b => exact ih (Nat.le_of_succ_le_succ fewer) b sees
    | none => exact ⟨t, rfl, sees⟩

theorem foretells_node (readers : r.Foretells r') {kind : Kind} {p : Parser α} {other : kind ≠ .superCall}
    (inner : ∀ s t, s.Foreshadows r.isOpen t → (p.run r s).Foretells r.isOpen (p.run r' t))
    (sees : s.Foreshadows r.isOpen t) :
    ((node kind p other).run r s).Foretells r.isOpen ((node kind p other).run r' t) := by
  have sees' : State.Foreshadows r.isOpen ⟨[], s.rest⟩ ⟨[], t.rest⟩ := sees.within rfl fun _ => rfl
  refine (inner _ _ sees').andThen fun a u v first second later => ⟨_, rfl, ?_⟩
  have moved := moves_run readers.moves p first
  have moved' := moves_run readers.moves' p second
  exact sees.asNode later moved moved' (moved.asNode other) (moved'.asNode other) sees.built

theorem foretells_wrap (readers : r.Foretells r') {kind : Kind} {p : Parser α} {other : kind ≠ .superCall}
    (inner : ∀ s t, s.Foreshadows r.isOpen t → (p.run r s).Foretells r.isOpen (p.run r' t))
    (sees : s.Foreshadows r.isOpen t) :
    ((wrap kind p other).run r s).Foretells r.isOpen ((wrap kind p other).run r' t) := by
  rcases s with ⟨_ | ⟨newest, older⟩, rest⟩ <;> rcases t with ⟨_ | ⟨newest', older'⟩, rest'⟩
  · rfl
  · cases sees.built
  · cases sees.built
  · obtain ⟨same, sameOlder⟩ := List.cons.inj sees.built
    have sees' : State.Foreshadows r.isOpen ⟨[newest], rest⟩ ⟨[newest'], rest'⟩ := by
      refine sees.within (congrArg (fun tree => [tree]) same) fun fresh => ?_
      rw [State.isFresh, List.all_cons, Bool.and_eq_true] at fresh
      rw [State.isFresh, List.all_cons, fresh.1, List.all_nil, Bool.true_and]
    refine (inner _ _ sees').andThen fun a u v first second later => ⟨_, rfl, ?_⟩
    have moved := moves_run readers.moves p first
    have moved' := moves_run readers.moves' p second
    exact sees.asNode later moved moved' (moved.asWrap other) (moved'.asWrap other) sameOlder

theorem foretells_superCall (readers : r.Foretells r') {p : Parser α}
    (inner : ∀ s t, s.Foreshadows r.isOpen t → (p.run r s).Foretells r.isOpen (p.run r' t))
    (sees : s.Foreshadows r.isOpen t) :
    ((superCall p).run r s).Foretells r.isOpen ((superCall p).run r' t) := by
  rcases s with ⟨_ | ⟨_ | ⟨inside, trees⟩, older⟩, rest⟩ <;>
    rcases t with ⟨_ | ⟨_ | ⟨inside', trees'⟩, older'⟩, rest'⟩
  case cons.leaf.cons.leaf =>
    obtain ⟨same, sameOlder⟩ := List.cons.inj sees.built
    have sees' : State.Foreshadows r.isOpen ⟨[], rest⟩ ⟨[], rest'⟩ := sees.within rfl fun _ => rfl
    refine (inner _ _ sees').andThen fun a u v first second later => ⟨_, rfl, ?_⟩
    have moved := moves_run readers.moves p first
    have moved' := moves_run readers.moves' p second
    refine sees.enclose later (.of_moves moved moved.asSuperCall rfl fun fresh => ?_)
      (.of_moves moved' moved'.asSuperCall rfl fun fresh => ?_) ?_
    · simp [State.isFresh, Tree.leaves, Tree.leavesOf] at fresh
    · simp [State.isFresh, Tree.leaves, Tree.leavesOf] at fresh
    · simp only [Tree.bareAll, Tree.bare, Tree.bareAll_reverse, later.built, sameOlder, (Tree.leaf.inj same)]
  all_goals first | rfl | cases sees.built

/-- What an open run finds, without a look behind the tokens to come, it finds wherever these stand. What another
one finds, it finds wherever the same tokens end. -/
theorem foretells_run (readers : r.Foretells r') (p : Parser α) (sees : s.Foreshadows r.isOpen t) :
    (p.run r s).Foretells r.isOpen (p.run r' t) := by
  induction p generalizing s t with
  | pure a => exact ⟨t, rfl, sees⟩
  | bind p f ihP ihF => exact (ihP sees).andThen fun a s t _ _ sees => ihF a sees
  | fail => rfl
  | orElse p q ihP ihQ =>
    rw [run, run]
    have first := ihP sees
    cases found : p.run r s with
    | found a u =>
      rw [found] at first
      obtain ⟨v, found', sees'⟩ := first
      rw [found']
      exact ⟨v, rfl, sees'⟩
    | refused =>
      rw [found] at first
      rw [show p.run r' t = .refused from first]
      exact ihQ sees
    | unknown => trivial
  | peek place => exact foretells_peek readers.closed sees place
  | ahead p ih =>
    rw [run, run]
    have first := ih sees
    cases found : p.run r s with
    | found a u =>
      rw [found] at first
      obtain ⟨v, found', _⟩ := first
      rw [found']
      exact ⟨t, rfl, sees⟩
    | refused =>
      rw [found] at first
      rw [show p.run r' t = .refused from first]
      exact ⟨t, rfl, sees⟩
    | unknown => trivial
  | advance => exact foretells_advance readers.closed sees
  | node kind p other ih => exact foretells_node readers (fun _ _ => ih) sees
  | wrap kind p other ih => exact foretells_wrap readers (fun _ _ => ih) sees
  | superCall p ih => exact foretells_superCall readers (fun _ _ => ih) sees
  | iterate a step ih =>
    exact foretells_rounds (fun b s t sees => ih b sees) (Nat.succ_le_succ sees.length_le) a sees
  | call rule => exact readers.call _ rule s t sees

end Parser

theorem Grammar.isOpen_reader (isOpen : Bool) (depth : Nat) : (reader isOpen depth).isOpen = isOpen := by
  cases depth <;> rfl

/-- The rules settle what they do without a look behind the tokens to come, if they settle it at all. -/
theorem Grammar.foretells_reader {depth depth' : Nat} {isOpen isOpen' : Bool}
    (closed : isOpen = false → isOpen' = false)
    (deeper : depth ≤ depth') : (reader isOpen depth).Foretells (reader isOpen' depth') := by
  induction depth generalizing depth' with
  | zero =>
    refine ⟨?_, moves_reader isOpen 0, moves_reader isOpen' depth', fun _ _ _ _ _ => trivial⟩
    rwa [isOpen_reader, isOpen_reader]
  | succ depth ih =>
    obtain ⟨depth', rfl⟩ := Nat.exists_eq_succ_of_ne_zero (Nat.ne_of_gt (Nat.lt_of_lt_of_le (Nat.succ_pos _) deeper))
    refine ⟨closed, moves_reader isOpen _, moves_reader isOpen' _, fun α rule s t sees => ?_⟩
    have runs := Parser.foretells_run (ih (Nat.le_of_succ_le_succ deeper)) (body rule) (s := s) (t := t)
    rw [isOpen_reader] at runs
    exact runs sees

end ModuleBundler.Script
