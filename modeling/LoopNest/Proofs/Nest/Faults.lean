import LoopNest.Nest.Candidates
import LoopNest.Proofs.Nest.Saved
import LoopNest.Proofs.Tree.Placement

namespace LoopNest

def Failure.Expected {ε : Type} : Failure ε → Prop
  | .fault f => f = .overflow
  | .refused _ => True

abbrev FailsExpectedly {ε α : Type} (x : Outcome ε α) : Prop := FailsOnly Failure.Expected x

namespace FailsExpectedly

variable {ε ε' α : Type}

theorem lift {x : Checked α} (h : FailsOnlyBy .overflow x) : FailsExpectedly (liftM x : Outcome ε α) := FailsOnly.lift h

theorem refuse (e : ε) : FailsExpectedly (Outcome.refuse e : Outcome ε α) := FailsOnly.error trivial

theorem require (o : Option α) (e : ε) : FailsExpectedly (Outcome.require o e) := by
  cases o with
  | none => exact refuse e
  | some a => exact .ok a

theorem mapRefusal {x : Outcome ε α} (h : FailsExpectedly x) (f : ε → ε') : FailsExpectedly (x.mapRefusal f) := by
  cases x with
  | ok a => exact .ok a
  | error failure =>
    cases failure with
    | fault f' => exact FailsOnly.error (h _ rfl)
    | refused e => exact refuse _

theorem of_overflowing {x : Outcome ε α} (h : FailsOnlyBy overflowing x) : FailsExpectedly x := by
  intro e he
  rw [h e he]
  rfl

end FailsExpectedly

theorem FailsOnly.map {ε α β : Type} {P : ε → Prop} {x : Except ε α} (h : FailsOnly P x) (f : α → β) :
    FailsOnly P (x.map f) := by
  cases x with
  | ok a => exact .ok (f a)
  | error e => exact .error (h e rfl)

section Trees

namespace Affine

theorem sub_failsOnly (f g : Affine) : FailsOnlyBy .overflow (f.sub g) :=
  (scale_failsOnly g (-1)).bind fun h _ => add_failsOnly f h

theorem addConstant_failsOnly (f : Affine) (k : Int) : FailsOnlyBy .overflow (f.addConstant k) :=
  (Word.checked_failsOnly _).bind fun _ _ => .ok _

theorem termsText_failsOnly (first : Bool) (ts : List Term) : FailsOnlyBy .overflow (termsText first ts) := by
  induction ts generalizing first with
  | nil => exact .ok _
  | cons t ts ih =>
    have hterm : FailsOnlyBy .overflow (termText first t) := (Word.checked_failsOnly _).bind fun _ _ => .ok _
    exact hterm.bind fun _ _ => (ih false).bind fun _ _ => .ok _

theorem constantText_failsOnly (c : Int) : FailsOnlyBy .overflow (constantText c) := by
  unfold constantText
  split
  · exact .ok _
  · split
    · exact (Word.checked_failsOnly _).bind fun _ _ => .ok _
    · exact .ok _

theorem text_failsOnly (f : Affine) : FailsOnlyBy .overflow f.text := by
  unfold text
  split
  · exact .ok _
  · exact (termsText_failsOnly _ _).bind fun _ _ => (constantText_failsOnly _).bind fun _ _ => .ok _

end Affine

namespace Header

theorem unclampedExtent?_failsOnly (h : Header) : FailsOnlyBy .overflow h.unclampedExtent? :=
  (Affine.sub_failsOnly _ _).bind fun _ _ => .ok _

theorem fixedExtent?_failsOnly (h : Header) : FailsOnlyBy .overflow h.fixedExtent? := by
  unfold fixedExtent?
  split
  · exact .ok _
  · exact h.unclampedExtent?_failsOnly

theorem text_failsOnly (h : Header) : FailsOnlyBy .overflow h.text := by
  have hbound : FailsOnlyBy .overflow h.boundText := by
    refine (Affine.text_failsOnly _).bind fun _ _ => ?_
    split
    · exact .ok _
    · exact (Affine.text_failsOnly _).bind fun _ _ => .ok _
  exact (Affine.text_failsOnly _).bind fun _ _ => hbound.bind fun _ _ => .ok _

end Header

theorem Leaf.text_failsOnly (p : Program) (l : Leaf) : FailsOnlyBy .overflow (l.text p) := by
  have hbindings (its : List String) (bs : List Affine) : FailsOnlyBy .overflow (bindingsText its bs) := by
    induction its generalizing bs with
    | nil => exact .ok _
    | cons it its ih =>
      cases bs with
      | nil => exact .ok _
      | cons b bs =>
        have hhead : FailsOnlyBy .overflow (bindingText it b) := by
          unfold bindingText
          split
          · exact .ok _
          · exact (Affine.text_failsOnly _).bind fun _ _ => .ok _
        exact hhead.bind fun _ _ => (ih bs).bind fun _ _ => .ok _
  exact (hbindings _ _).bind fun _ _ => .ok _

namespace Node

mutual

theorem text_failsOnly (p : Program) (depth : Nat) (n : Node) : FailsOnlyBy .overflow (n.text p depth) := by
  cases n with
  | leaf l => exact (l.text_failsOnly p).bind fun _ _ => .ok _
  | loop h body => exact h.text_failsOnly.bind fun _ _ => (textAll_failsOnly p _ body).bind fun _ _ => .ok _

theorem textAll_failsOnly (p : Program) (depth : Nat) (ns : List Node) :
    FailsOnlyBy .overflow (textAll p depth ns) := by
  cases ns with
  | nil => exact .ok _
  | cons n ns => exact (text_failsOnly p depth n).bind fun _ _ => (textAll_failsOnly p depth ns).bind fun _ _ => .ok _

end

variable (m : String → Affine)

theorem substituteForms_failsOnly (fs : List Affine) : FailsOnlyBy .overflow (substituteForms m fs) := by
  induction fs with
  | nil =>
    rw [substituteForms]
    exact .ok _
  | cons f fs ih =>
    rw [substituteForms]
    exact (Affine.bindVars_failsOnly f m).bind fun _ _ => ih.bind fun _ _ => .ok _

mutual

theorem substitute_failsOnly (n : Node) : FailsOnlyBy .overflow (n.substitute m) := by
  cases n with
  | leaf l =>
    rw [substitute]
    exact (substituteForms_failsOnly m _).bind fun _ _ => .ok _
  | loop h body =>
    rw [substitute]
    refine (Affine.bindVars_failsOnly _ m).bind fun _ _ => (Affine.bindVars_failsOnly _ m).bind fun _ _ => ?_
    dsimp only
    split
    · exact (FailsOnly.ok none).bind fun _ _ => (substituteAll_failsOnly body).bind fun _ _ => .ok _
    · exact ((Affine.bindVars_failsOnly _ m).map _).bind fun _ _ =>
        (substituteAll_failsOnly body).bind fun _ _ => .ok _

theorem substituteAll_failsOnly (ns : List Node) : FailsOnlyBy .overflow (substituteAll m ns) := by
  cases ns with
  | nil =>
    rw [substituteAll]
    exact .ok _
  | cons n ns =>
    rw [substituteAll]
    exact (substitute_failsOnly n).bind fun _ _ => (substituteAll_failsOnly ns).bind fun _ _ => .ok _

end

end Node

end Trees

section Transformations

open FailsExpectedly (lift refuse require)

variable {roots : List Node}

theorem namedLoop_failsExpectedly (roots : List Node) (dim : String) : FailsExpectedly (namedLoop roots dim) := by
  unfold namedLoop
  split
  · exact refuse _
  · split
    · exact refuse _
    · exact .ok _

theorem fixedRange_failsExpectedly (t : Transformation) (h : Header) : FailsExpectedly (fixedRange t h) := by
  unfold fixedRange
  split
  · exact refuse _
  · split
    · exact refuse _
    · refine (lift h.fixedExtent?_failsOnly).bind fun extent _ => ?_
      cases extent with
      | none => exact refuse _
      | some n => exact .ok _

theorem split_failsOnly (taken : List String) (h : Header) (body : List Node) (s : FixedRange) (factor : Int)
    (tags : Tags) : FailsOnlyBy .overflow (split taken h body s factor tags) := by
  have hvalue (outer inner : String) : FailsOnlyBy .overflow (tileValue outer inner factor s.lower) :=
    (Affine.scale_failsOnly _ _).bind fun _ _ => (Affine.add_failsOnly _ _).bind fun _ _ =>
      Affine.addConstant_failsOnly _ _
  have hrest (outer : String) : FailsOnlyBy .overflow (remainder outer factor s.extent) := by
    unfold remainder
    split
    · exact .ok _
    · exact (Affine.scale_failsOnly _ _).bind fun _ _ => (Affine.sub_failsOnly _ _).bind fun _ _ => .ok _
  exact (hvalue _ _).bind fun _ _ => (Node.substituteAll_failsOnly _ body).bind fun _ _ =>
    (hrest _).bind fun _ _ => .ok _

theorem splitAt_failsExpectedly (roots : List Node) (path : Path) (h : Header) (body : List Node) (s : FixedRange)
    (factor : Int) (tags : Tags) : FailsExpectedly (splitAt roots path h body s factor tags) :=
  (lift (split_failsOnly _ h body s factor tags)).bind fun _ _ => .ok _

theorem tile_failsExpectedly (roots : List Node) (dim : String) (factor : Nat) :
    FailsExpectedly (tile roots dim factor) := by
  refine (namedLoop_failsExpectedly roots dim).bind fun ⟨path, h, body⟩ _ => ?_
  dsimp only
  split
  · exact refuse _
  · refine (fixedRange_failsExpectedly _ h).bind fun s _ => ?_
    split
    · exact (lift (Word.checked_failsOnly _)).bind fun _ _ => refuse _
    · exact splitAt_failsExpectedly _ _ _ _ _ _ _

theorem tagOrSplit_failsExpectedly (roots : List Node) (t : Transformation) (path : Path) (h : Header)
    (body : List Node) (factor : Nat) (range : Int → Obstacle) (tags : Tags) :
    FailsExpectedly (tagOrSplit roots t path h body factor range tags) := by
  refine (lift h.unclampedExtent?_failsOnly).bind fun extent _ => ?_
  cases extent with
  | none => exact refuse _
  | some extent =>
    dsimp only
    split
    · exact refuse _
    · split
      · exact .ok _
      · exact (fixedRange_failsExpectedly t h).bind fun _ _ => splitAt_failsExpectedly _ _ _ _ _ _ _

theorem unroll_failsExpectedly (roots : List Node) (dim : String) (factor : Nat) :
    FailsExpectedly (unroll roots dim factor) := by
  refine (namedLoop_failsExpectedly roots dim).bind fun ⟨path, h, body⟩ _ => ?_
  dsimp only
  split
  · exact refuse _
  · exact tagOrSplit_failsExpectedly _ _ _ _ _ _ _ _

theorem vectorize_failsExpectedly (roots : List Node) (dim : String) (factor : Nat) :
    FailsExpectedly (vectorize roots dim factor) := by
  refine (namedLoop_failsExpectedly roots dim).bind fun ⟨path, h, body⟩ _ => ?_
  dsimp only
  split
  · exact refuse _
  · split
    · exact refuse _
    · exact tagOrSplit_failsExpectedly _ _ _ _ _ _ _ _

theorem parallelize_failsExpectedly (roots : List Node) (dim : String) : FailsExpectedly (parallelize roots dim) := by
  refine (namedLoop_failsExpectedly roots dim).bind fun ⟨path, h, body⟩ _ => ?_
  dsimp only
  repeat' split
  all_goals first | exact refuse _ | exact .ok _

theorem interchangeAt_failsExpectedly (roots : List Node) (t : Transformation) (outer inner : Path) :
    FailsExpectedly (interchangeAt roots t outer inner) := by
  unfold interchangeAt
  dsimp only
  repeat' split
  all_goals first | exact refuse _ | exact .ok _

theorem interchange_failsExpectedly (roots : List Node) (first second : String) :
    FailsExpectedly (interchange roots first second) := by
  refine (namedLoop_failsExpectedly roots first).bind fun ⟨firstPath, _, _⟩ _ => ?_
  refine (namedLoop_failsExpectedly roots second).bind fun ⟨secondPath, _, _⟩ _ => ?_
  dsimp only
  split
  · exact interchangeAt_failsExpectedly _ _ _ _
  · split
    · exact interchangeAt_failsExpectedly _ _ _ _
    · exact refuse _

section Fuse

variable (m : String → Affine)

theorem sameForm_failsOnly (moved kept : Affine) : FailsOnlyBy .overflow (sameForm m moved kept) :=
  (Affine.bindVars_failsOnly moved m).bind fun _ _ => .ok _

theorem sameHeader_failsOnly (moved kept : Header) : FailsOnlyBy .overflow (sameHeader m moved kept) := by
  have hclamp (f g : Option Affine) : FailsOnlyBy .overflow (sameClamp m f g) := by
    cases f with
    | none =>
      cases g with
      | none => exact .ok _
      | some g => exact .ok _
    | some f =>
      cases g with
      | none => exact (Affine.bindVars_failsOnly f m).bind fun _ _ => .ok _
      | some g => exact sameForm_failsOnly m f g
  refine (sameForm_failsOnly m _ _).bind fun same _ => ?_
  split
  · exact .ok _
  · refine (sameForm_failsOnly m _ _).bind fun same _ => ?_
    split
    · exact .ok _
    · exact hclamp _ _

theorem checkMatched_failsExpectedly (t : Transformation) (pairs : List (Header × Header)) :
    FailsExpectedly (checkMatched t m pairs) := by
  induction pairs with
  | nil => exact .ok _
  | cons pair rest ih =>
    obtain ⟨kept, moved⟩ := pair
    rw [checkMatched]
    split
    · exact refuse _
    · refine (lift (sameHeader_failsOnly m moved kept)).bind fun same _ => ?_
      split
      · exact ih
      · exact refuse _

theorem moveBranch_failsExpectedly (roots : List Node) (name : String) (computation : Nat) (branch : Path)
    (level : Nat) : FailsExpectedly (moveBranch roots m name computation branch level) := by
  unfold moveBranch
  split
  · exact refuse _
  · exact (lift (Node.substitute_failsOnly m _)).bind fun _ _ => (require _ _).bind fun _ _ => .ok _

end Fuse

theorem fuse_failsExpectedly (p : Program) (roots : List Node) (first second dim : String) :
    FailsExpectedly (fuse p roots first second dim) := by
  refine (require _ _).bind fun a _ => (require _ _).bind fun b _ => ?_
  dsimp only
  split
  · exact refuse _
  · refine (require _ _).bind fun aPath _ => (require _ _).bind fun bPath _ => ?_
    refine (namedLoop_failsExpectedly roots dim).bind fun ⟨dimPath, _, _⟩ _ => ?_
    dsimp only
    split
    · exact refuse _
    · split
      · exact refuse _
      · split
        · exact refuse _
        · exact (checkMatched_failsExpectedly _ _ _).bind fun _ _ => moveBranch_failsExpectedly _ _ _ _ _ _

theorem applyTo_failsExpectedly (p : Program) (roots : List Node) (t : Transformation) :
    FailsExpectedly (t.applyTo p roots) := by
  cases t with
  | tile dim factor => exact tile_failsExpectedly roots dim factor
  | interchange first second => exact interchange_failsExpectedly roots first second
  | fuse first second dim => exact fuse_failsExpectedly p roots first second dim
  | unroll dim factor => exact unroll_failsExpectedly roots dim factor
  | parallelize dim => exact parallelize_failsExpectedly roots dim
  | vectorize dim factor => exact vectorize_failsExpectedly roots dim factor

end Transformations

section Legality

open FailsExpectedly (lift refuse require)

variable {p : Program}

namespace Dataflow

theorem offsetIn_failsExpectedly (i : Instance) (place : Place) : FailsExpectedly (offsetIn p i place) := by
  refine (lift (Place.offset_failsOnly fun f _ => KernelForm.eval_failsOnly f)).bind fun offset _ => ?_
  cases offset with
  | none => exact refuse _
  | some n => exact .ok _

theorem sourcesOf_failsExpectedly (w : Writers) (i : Instance) (places : List Place) :
    FailsExpectedly (sourcesOf p w i places) := by
  induction places with
  | nil => exact .ok _
  | cons place places ih => exact (offsetIn_failsExpectedly i place).bind fun _ _ => ih.bind fun _ _ => .ok _

theorem visit_failsExpectedly (i : Instance) (d : Dataflow) : FailsExpectedly (visit p i d) := by
  refine (lift i.point_failsOnly).bind fun point _ => ?_
  dsimp only
  split
  · exact refuse _
  · exact (sourcesOf_failsExpectedly _ i _).bind fun _ _ => (offsetIn_failsExpectedly i _).bind fun _ _ => .ok _

theorem record_failsExpectedly (buffer volume offset : Nat) (isWrite : Bool) (c : Conflicts) (is : List Iteration) :
    FailsExpectedly (Conflicts.record p buffer volume offset isWrite c is) := by
  induction is generalizing c with
  | nil => exact .ok _
  | cons i is ih =>
    rw [Conflicts.record]
    cases isWrite with
    | false =>
      simp only [Bool.false_eq_true, if_false]
      split
      · exact refuse _
      · exact ih _
    | true =>
      simp only [if_true]
      split
      · exact refuse _
      · exact ih _

theorem checkReads_failsExpectedly (i : Instance) (places : List Place) (sources : List (Option Nat)) (s : Progress) :
    FailsExpectedly (checkReads p i places sources s) := by
  induction places generalizing sources s with
  | nil => exact .ok _
  | cons place places ih =>
    cases sources with
    | nil => exact .ok _
    | cons source sources =>
      rw [checkReads]
      refine (offsetIn_failsExpectedly i place).bind fun offset _ => ?_
      split
      · exact refuse _
      · exact (record_failsExpectedly _ _ _ _ _ _).bind fun _ _ => ih _ _

theorem checkVisit_failsExpectedly (d : Dataflow) (i : Instance) (s : Progress) :
    FailsExpectedly (checkVisit p d i s) := by
  refine (lift i.point_failsOnly).bind fun point _ => ?_
  dsimp only
  split
  · exact refuse _
  · split
    · exact refuse _
    · exact (checkReads_failsExpectedly i _ _ _).bind fun _ _ => (offsetIn_failsExpectedly i _).bind fun _ _ =>
        (record_failsExpectedly _ _ _ _ _ _).bind fun _ _ => .ok _

theorem check_failsExpectedly (d : Dataflow) (k : Kernel) : FailsExpectedly (d.check p k) := by
  refine (Kernel.walk_failsOnly _ (Q := Failure.Expected) rfl fun _ i _ s _ _ =>
    checkVisit_failsExpectedly d i s).bind fun s _ => ?_
  split
  · exact refuse _
  · split
    · exact refuse _
    · exact .ok _

end Dataflow

variable {description : Description} (hp : description.build = .ok p)
include hp

theorem ofTree_failsExpectedly {roots : List Node} (h : Node.TidyAll p [] roots) :
    FailsExpectedly ((Kernel.ofTree p roots).mapRefusal Illegality.numbering) :=
  .mapRefusal (.of_overflowing (Kernel.ofTree_failsOnly (Description.wellFormed_of_build hp) h)) _

theorem Dataflow.ofProgram_failsExpectedly : FailsExpectedly (Dataflow.ofProgram p) := by
  obtain ⟨s, hs, -⟩ := exists_nesting hp
  have hsound := (sound_of_nesting (Description.wellFormed_of_build hp) hs).1
  rw [Dataflow.ofProgram, hs, lift_ok, ok_bind]
  exact (ofTree_failsExpectedly hp hsound.tidy).bind fun k _ =>
    Kernel.walk_failsOnly _ (Q := Failure.Expected) rfl fun _ i _ d _ _ => visit_failsExpectedly i d

theorem checkLegal_failsExpectedly {roots : List Node} (h : Reshaped p roots) :
    FailsExpectedly ((Context.ofProgram p).checkLegal roots) := by
  rw [Context.checkLegal, (Context.ofProgram p).recorded_get]
  exact (Dataflow.ofProgram_failsExpectedly hp).bind fun d _ =>
    (ofTree_failsExpectedly hp (h.sound (Description.wellFormed_of_build hp)).tidy).bind fun k _ =>
      Dataflow.check_failsExpectedly d k

end Legality

section Nests

open FailsExpectedly (lift)

namespace Candidates

theorem forLoop_failsOnly (parallelAbove : Bool) (h : Header) (body : List Node) :
    FailsOnlyBy .overflow (forLoop parallelAbove h body) := h.fixedExtent?_failsOnly.bind fun _ _ => .ok _

mutual

theorem forNode_failsOnly (parallelAbove : Bool) (n : Node) : FailsOnlyBy .overflow (forNode parallelAbove n) := by
  cases n with
  | leaf l => exact .ok _
  | loop h body =>
    exact (forLoop_failsOnly _ h body).bind fun _ _ => (forNodes_failsOnly _ body).bind fun _ _ => .ok _

theorem forNodes_failsOnly (parallelAbove : Bool) (ns : List Node) :
    FailsOnlyBy .overflow (forNodes parallelAbove ns) := by
  cases ns with
  | nil => exact .ok _
  | cons n ns => exact (forNode_failsOnly _ n).bind fun _ _ => (forNodes_failsOnly _ ns).bind fun _ _ => .ok _

end

end Candidates

namespace Nest

theorem candidates_failsOnly (c : Context) (n : Nest) : FailsOnlyBy .overflow (n.candidates c) :=
  (Candidates.forNodes_failsOnly _ _).bind fun _ _ => .ok _

theorem structureText_failsOnly (c : Context) (n : Nest) : FailsOnlyBy .overflow (n.structureText c) :=
  Node.textAll_failsOnly _ _ _

variable {p : Program} {description : Description} (hp : description.build = .ok p) {n : Nest}
  (hn : Reshaped p n.roots)
include hp hn

theorem derive_failsExpectedly (t : Transformation) : FailsExpectedly (n.derive (Context.ofProgram p) t) := by
  refine ((applyTo_failsExpectedly p n.roots t).mapRefusal _).bind fun roots hroots => ?_
  have hreshaped := Reshaped.step t hn (Outcome.mapRefusal_eq_ok.1 hroots)
  exact ((checkLegal_failsExpectedly hp hreshaped).mapRefusal _).bind fun _ _ => .ok _

theorem derive?_failsOnly (t : Transformation) : FailsOnlyBy .overflow (n.derive? (Context.ofProgram p) t) := by
  intro f h
  unfold derive? at h
  split at h
  · cases h
  · cases h
  · next hf =>
    cases h
    exact derive_failsExpectedly hp hn t _ hf

theorem deriveEach_failsOnly (ts : List Transformation) :
    FailsOnlyBy .overflow (n.deriveEach (Context.ofProgram p) ts) := by
  induction ts with
  | nil => exact .ok _
  | cons t ts ih => exact (derive?_failsOnly hp hn t).bind fun _ _ => ih.bind fun _ _ => .ok _

theorem neighbors_failsOnly : FailsOnlyBy .overflow (n.neighbors (Context.ofProgram p)) :=
  (candidates_failsOnly _ n).bind fun ts _ => deriveEach_failsOnly hp hn ts

end Nest

end Nests

end LoopNest
