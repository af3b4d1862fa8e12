import LoopNest.Proofs.Nest.Derivation
import LoopNest.Proofs.Transform.Representation

namespace LoopNest

namespace Node

mutual

def headers : Node → List Header
  | leaf _ => []
  | loop h body => h :: headersAll body

def headersAll : List Node → List Header
  | [] => []
  | n :: ns => n.headers ++ headersAll ns

end

theorem headersAll_append (ms ns : List Node) : headersAll (ms ++ ns) = headersAll ms ++ headersAll ns := by
  induction ms with
  | nil => rfl
  | cons m ms ih => rw [List.cons_append, headersAll, headersAll, ih, List.append_assoc]

section Context

variable {n x : Node} {ns ns' : List Node} {hs : List Header}

theorem Removes.headers_eq (h : Removes n ns ns' hs) : ∃ before after before' after',
    headersAll ns = before ++ n.headers ++ after ∧ headersAll ns' = before' ++ after' ∧
      before'.Sublist before ∧ after'.Sublist after := by
  induction h with
  | here pre post =>
    refine ⟨headersAll pre, headersAll post, _, _, ?_, headersAll_append pre post, .refl _, .refl _⟩
    rw [headersAll_append, headersAll, List.append_assoc]
  | under hd pre post hb ih =>
    obtain ⟨before, after, before', after', hbody, hbody', hbefore, hafter⟩ := ih
    refine ⟨headersAll pre ++ hd :: before, after ++ headersAll post, headersAll pre ++ hd :: before',
      after' ++ headersAll post, ?_, ?_, ?_, hafter.append_right _⟩
    · simp [headersAll_append, headersAll, headers, hbody]
    · simp [headersAll_append, headersAll, headers, hbody']
    · exact (hbefore.cons_cons hd).append_left _
  | prune hd pre post hb ih =>
    obtain ⟨before, after, before', after', hbody, -, -, -⟩ := ih
    refine ⟨headersAll pre ++ hd :: before, after ++ headersAll post, headersAll pre, headersAll post, ?_,
      headersAll_append pre post, List.sublist_append_left _ _, List.sublist_append_right _ _⟩
    simp [headersAll_append, headersAll, headers, hbody]

theorem Inserts.headers_eq (h : Inserts n ns ns' hs) : ∃ before after,
    headersAll ns = before ++ after ∧ headersAll ns' = before ++ n.headers ++ after := by
  induction h with
  | here pre post =>
    refine ⟨headersAll pre, headersAll post, headersAll_append pre post, ?_⟩
    rw [headersAll_append, headersAll, List.append_assoc]
  | under hd pre post hb ih =>
    obtain ⟨before, after, hbody, hbody'⟩ := ih
    refine ⟨headersAll pre ++ hd :: before, after ++ headersAll post, ?_, ?_⟩
    · simp [headersAll_append, headersAll, headers, hbody]
    · simp [headersAll_append, headersAll, headers, hbody']

theorem Occurs.insertBehind_body {path : Path} {hd : Header} (h : Occurs x ns path (hs ++ [hd])) (n : Node) :
    ∃ pre post path', Occurs (loop hd (pre ++ x :: n :: post)) (insertBehind n path ns) path' hs := by
  induction hs generalizing ns path with
  -- the path leads through one loop, so the node stands in its body
  | nil =>
    obtain ⟨pre, post, body, rest, rfl, rfl, hb⟩ := h.exists_under
    cases hb with
    | here inner outer =>
      have hchild : insertBehind n [inner.length] (inner ++ x :: outer) = inner ++ x :: n :: outer := by
        rw [insertBehind, insertIdx_length, List.append_assoc, List.singleton_append]
      refine ⟨inner, outer, [pre.length], ?_⟩
      rw [insertBehind, modify_length]
      · simp only [hchild]
        exact .here pre post
      · simp
  | cons outer hs ih =>
    obtain ⟨pre, post, body, rest, rfl, rfl, hb⟩ := h.exists_under
    obtain ⟨inner, last, path', hchild⟩ := ih hb
    obtain ⟨j, rest, rfl⟩ := List.exists_cons_of_ne_nil hb.ne_nil
    refine ⟨inner, last, pre.length :: path', ?_⟩
    rw [insertBehind, modify_length]
    · exact .under outer pre post hchild
    · simp

end Context

end Node

open Node Kernel

namespace Moves

variable {p : Program} {roots rest roots' : List Node} {rho : String → String} {outer kept moved : List Header}
  {n n' : Node} (hsound : Sound p roots) (h : Moves roots rest roots' rho outer kept moved n n')
include hsound h

theorem filter_branch (env : Valuation) :
    (pointsAll env roots').filter (fun x => x.1 ∈ n.leaves.map Leaf.computation) =
      (pointsAll env roots).filter fun x => x.1 ∈ n.leaves.map Leaf.computation := by
  have hrest : ∀ c ∈ (leavesAll rest).map Leaf.computation, decide (c ∈ n.leaves.map Leaf.computation) = false :=
    fun c hc => decide_eq_false fun hmem => h.removes.apart hsound.leaves hmem hc
  rw [h.removes.filter_branch hrest env, h.inserts.removes.filter_branch hrest env, h.pointsBelow_eq hsound env]

omit hsound in
theorem filter_rest (env : Valuation) :
    (pointsAll env roots').filter (fun x => x.1 ∉ n.leaves.map Leaf.computation) =
      (pointsAll env roots).filter fun x => x.1 ∉ n.leaves.map Leaf.computation := by
  have hbranch : ∀ c ∈ n.leaves.map Leaf.computation, decide (c ∉ n.leaves.map Leaf.computation) = false :=
    fun c hc => decide_eq_false fun hnot => hnot hc
  have hrenamed : ∀ c ∈ n'.leaves.map Leaf.computation, decide (c ∉ n.leaves.map Leaf.computation) = false := by
    rw [leaves_substitute n h.substitute]
    exact hbranch
  rw [h.removes.filter_rest hbranch env, h.inserts.removes.filter_rest hrenamed env]

omit hsound in
theorem headers_eq : ∃ before after before' after', headersAll roots = before ++ n.headers ++ after ∧
    headersAll roots' = before' ++ n'.headers ++ after' ∧ (before' ++ after').Sublist (before ++ after) := by
  obtain ⟨before, after, before', after', hroots, hrest, hbefore, hafter⟩ := h.removes.headers_eq
  obtain ⟨before'', after'', hrest', hroots'⟩ := h.inserts.headers_eq
  refine ⟨before, after, before'', after'', hroots, hroots', ?_⟩
  rw [← hrest', hrest]
  exact hbefore.append hafter

end Moves

/-- One branch of a tree moves, from below the loops `moved` to below the loops `kept`, and nothing else does. -/
structure MovesBranch (p : Program) (roots roots' : List Node) (first second : Nat) (dim : String)
    (outer kept moved : List Header) (rho : String → String) (n n' : Node) : Prop where
  branch : branchAt? roots dim second = some n ∧ second ∈ n.leaves.map Leaf.computation ∧
    ∃ path, Occurs n roots path (outer ++ moved)
  renames : (moved.map Header.dim).map rho = kept.map Header.dim ∧ (∀ a ∉ moved.map Header.dim, rho a = a) ∧
    n.substitute (fun a => .var (rho a)) = .ok n'
  walks : (∃ ids ids', p.walk roots = .ok ids ∧ p.walk roots' = .ok ids' ∧
      ids'.filter (fun x => x.1 ∈ n.leaves.map Leaf.computation) =
        ids.filter (fun x => x.1 ∈ n.leaves.map Leaf.computation) ∧
      ids'.filter (fun x => x.1 ∉ n.leaves.map Leaf.computation) =
        ids.filter (fun x => x.1 ∉ n.leaves.map Leaf.computation)) ∨
    p.walk roots = .error overflowing ∨ p.walk roots' = .error overflowing
  behind : ∃ hs hd pre x post path, outer ++ kept = hs ++ [hd] ∧ hd.dim = dim ∧ first ∈ x.leaves.map Leaf.computation ∧
    Occurs (.loop hd (pre ++ x :: n' :: post)) roots' path hs ∧
    ∀ ids', p.walk roots' = .ok ids' → ∀ e ∈ runs outermost (hs ++ [hd]),
      x.points e ++ n.points (fun a => e (rho a)) <:+: ids'
  inhabited : ∀ l ∈ loopsAll 0 roots', l.2.2 ≠ []
  frame : ∃ before after before' after', headersAll roots = before ++ n.headers ++ after ∧
    headersAll roots' = before' ++ n'.headers ++ after' ∧ (before' ++ after').Sublist (before ++ after)

theorem Fuses.movesBranch {p : Program} (hp : p.WellFormed) {roots rest roots' : List Node}
    (hr : Representation p roots) {first second dim : String} {rho : String → String} {outer kept moved : List Header}
    {n n' : Node} (h : Fuses p roots rest roots' first second dim rho outer kept moved n n') :
    ∃ a b, p.computationPosition? first = some a ∧ p.computationPosition? second = some b ∧
      MovesBranch p roots roots' a b dim outer kept moved rho n n' := by
  have hmoves := h.moves
  obtain ⟨path, hoccurs, -⟩ := hmoves.from_place
  obtain ⟨a, x, path', ha, hx, hbehind, rfl⟩ := h.behind
  obtain ⟨b, hb, hmem, hbranch⟩ := h.branch
  obtain ⟨hs, hd, hinnermost, hdim⟩ := h.innermost
  refine ⟨a, b, ha, hb, ⟨hbranch, hmem, path, hoccurs⟩, ⟨hmoves.matched.dims, hmoves.fixes, hmoves.substitute⟩, ?_, ?_,
    fun l hl => ((regular_moves hr.regular hmoves).loops _ l hl).1, hmoves.headers_eq⟩
  · have hbefore := Program.walk_cases hp hr.tidy
    have hafter := Program.walk_cases hp (hmoves.tidy hr.sound)
    rcases hbefore with hbefore | hbefore
    · rcases hafter with hafter | hafter
      · exact Or.inl ⟨_, _, hbefore, hafter, hmoves.filter_branch hr.sound _, hmoves.filter_rest _⟩
      · exact Or.inr (Or.inr hafter)
    · exact Or.inr (Or.inl hbefore)
  · obtain ⟨pre, post, place, hloop⟩ := (hinnermost ▸ hbehind).insertBehind_body n'
    refine ⟨hs, hd, pre, x, post, place, hinnermost, hdim, hx, hloop, fun ids' hids e he => ?_⟩
    rw [Program.walk_eq_ok hids, ← hmoves.points_branch hr.sound]
    refine List.IsInfix.trans ?_ (hloop.infix_body he)
    rw [pointsAll_append, pointsAll, pointsAll, ← List.append_assoc (x.points e)]
    exact ⟨_, _, List.append_assoc _ _ _⟩

/-- Fusion moves the branch that holds the second computation behind the one that holds the first, into the loop `dim`,
and nothing else. -/
theorem fuse_moves_branch {description : Description} {p : Program} (hp : description.build = .ok p)
    {roots roots' : List Node} (hr : Representation p roots) {first second dim : String}
    (h : (Transformation.fuse first second dim).applyTo p roots = .ok roots') :
    ∃ a b outer kept moved rho n n', p.computationPosition? first = some a ∧ p.computationPosition? second = some b ∧
      MovesBranch p roots roots' a b dim outer kept moved rho n n' := by
  obtain ⟨rest, rho, outer, kept, moved, n, n', hfuses⟩ := fuses_of_fuse hr.sound h
  obtain ⟨a, b, ha, hb, hmoves⟩ := hfuses.movesBranch (Description.wellFormed_of_build hp) hr
  exact ⟨a, b, outer, kept, moved, rho, n, n', ha, hb, hmoves⟩

theorem fuse_moves_branch_producerConsumer : ∃ outer kept moved rho n n',
    MovesBranch ProducerConsumer.program ProducerConsumer.separate (ProducerConsumer.fused {}) 0 1 "i" outer kept moved
      rho n n' := by
  have hr := representation_of_reshaped ProducerConsumer.build_eq (.initial ProducerConsumer.nesting_eq)
  have h : (Transformation.fuse "produce" "consume" "i").applyTo ProducerConsumer.program ProducerConsumer.separate =
      .ok (ProducerConsumer.fused {}) := rfl
  obtain ⟨a, b, outer, kept, moved, rho, n, n', ha, hb, hmoves⟩ := fuse_moves_branch ProducerConsumer.build_eq hr h
  cases ha
  cases hb
  exact ⟨outer, kept, moved, rho, n, n', hmoves⟩

namespace Remote

def description : Description where
  name := "remote"
  params := []
  buffers := [⟨"x", ["1"], .float64, .output⟩, ⟨"y", ["1"], .float64, .output⟩]
  computations :=
    [{ name := "first"
       iterators := [⟨"z", "2", "3"⟩, ⟨"a", "1", "2"⟩]
       store := ⟨"x", ["0"]⟩
       expr := .const 1.0 },
     { name := "second"
       iterators :=
         [⟨"i", "2", "3"⟩, ⟨"j", "1", "2"⟩,
           ⟨"r", "4611686018427387904 - 4611686018427387904*i + 4611686018427387904*j",
             "4611686018427387905 - 4611686018427387904*i + 4611686018427387904*j"⟩]
       store := ⟨"y", ["0"]⟩
       expr := .const 1.0 }]

def program : Program where
  name := "remote"
  params := []
  buffers := [⟨"x", [1], .float64, .output⟩, ⟨"y", [1], .float64, .output⟩]
  computations :=
    [⟨"first", [⟨"z", .ofInt 2, .ofInt 3⟩, ⟨"a", .ofInt 1, .ofInt 2⟩], .const 1.0, ⟨0, [.ofInt 0]⟩, none⟩,
     ⟨"second",
      [⟨"i", .ofInt 2, .ofInt 3⟩, ⟨"j", .ofInt 1, .ofInt 2⟩,
        ⟨"r", ⟨[⟨-4611686018427387904, "i"⟩, ⟨4611686018427387904, "j"⟩], 4611686018427387904⟩,
          ⟨[⟨-4611686018427387904, "i"⟩, ⟨4611686018427387904, "j"⟩], 4611686018427387905⟩⟩],
      .const 1.0, ⟨1, [.ofInt 0]⟩, none⟩]

def first : Node := .leaf ⟨0, [.var "z", .var "a"]⟩

def separate : List Node :=
  [.loop ⟨"z", .ofInt 2, .ofInt 3, none, {}⟩ [.loop ⟨"a", .ofInt 1, .ofInt 2, none, {}⟩ [first]],
   .loop ⟨"i", .ofInt 2, .ofInt 3, none, {}⟩
     [.loop ⟨"j", .ofInt 1, .ofInt 2, none, {}⟩
       [.loop ⟨"r", ⟨[⟨-4611686018427387904, "i"⟩, ⟨4611686018427387904, "j"⟩], 4611686018427387904⟩,
          ⟨[⟨-4611686018427387904, "i"⟩, ⟨4611686018427387904, "j"⟩], 4611686018427387905⟩, none, {}⟩
         [.leaf ⟨1, [.var "i", .var "j", .var "r"]⟩]]]]

def fused : List Node :=
  [.loop ⟨"z", .ofInt 2, .ofInt 3, none, {}⟩
     [.loop ⟨"a", .ofInt 1, .ofInt 2, none, {}⟩
       [first,
        .loop ⟨"r", ⟨[⟨4611686018427387904, "a"⟩, ⟨-4611686018427387904, "z"⟩], 4611686018427387904⟩,
          ⟨[⟨4611686018427387904, "a"⟩, ⟨-4611686018427387904, "z"⟩], 4611686018427387905⟩, none, {}⟩
         [.leaf ⟨1, [.var "z", .var "a", .var "r"]⟩]]]]

theorem build_eq : description.build = .ok program := rfl

/-- Renamed, the terms of a bound are added in another order, and what was a word on the way to it no longer is. -/
theorem fused_walk_overflows : description.build = .ok program ∧ program.nesting = .ok separate ∧
    Representation program separate ∧
    (Transformation.fuse "first" "second" "a").applyTo program separate = .ok fused ∧
    program.walk separate = .ok [(0, [2, 1]), (1, [2, 1, 0])] ∧ program.walk fused = .error overflowing :=
  ⟨build_eq, rfl, representation_of_reshaped build_eq (.initial rfl), rfl, rfl, rfl⟩

end Remote

end LoopNest
