import LoopNest.Proofs.Execution.Concurrency
import LoopNest.Proofs.Execution.Indices
import LoopNest.Proofs.Nest.Derivation

namespace LoopNest

open LoopNest.Flow Kernel Node

variable {p : Program}

namespace Nest

theorem derive_eq_ok {c : Context} {n m : Nest} {t : Transformation} (h : n.derive c t = .ok m) :
    t.applyTo c.program n.roots = .ok m.roots ∧ c.checkLegal m.roots = .ok () := by
  obtain ⟨roots, hroots, h⟩ := bind_eq_ok.1 h
  obtain ⟨⟨⟩, hlegal, h⟩ := bind_eq_ok.1 h
  cases h
  exact ⟨Outcome.mapRefusal_eq_ok.1 hroots, Outcome.mapRefusal_eq_ok.1 hlegal⟩

theorem derive_of_legal {c : Context} {n : Nest} {t : Transformation} {roots : List Node}
    (h : t.applyTo c.program n.roots = .ok roots) (hlegal : c.checkLegal roots = .ok ()) :
    n.derive c t = .ok { roots, applied := n.applied ++ [t] } := by
  rw [derive, h, Outcome.mapRefusal_ok, ok_bind, hlegal]
  rfl

theorem derive_of_illegal {c : Context} {n : Nest} {t : Transformation} {roots : List Node} {e : Illegality}
    (h : t.applyTo c.program n.roots = .ok roots) (hillegal : c.checkLegal roots = Outcome.refuse e) :
    n.derive c t = Outcome.refuse (.illegal e) := by
  rw [derive, h, Outcome.mapRefusal_ok, ok_bind, hillegal]
  rfl

theorem reshaped_deriveAll {n m : Nest} {s : Schedule} (hn : Reshaped p n.roots)
    (h : deriveAll (Context.ofProgram p) n s = .ok m) :
    Reshaped p m.roots ∧ (s ≠ [] → (Context.ofProgram p).checkLegal m.roots = .ok ()) := by
  induction s generalizing n with
  | nil =>
    cases h
    exact ⟨hn, fun hne => absurd rfl hne⟩
  | cons t ts ih =>
    obtain ⟨next, hnext, h⟩ := bind_eq_ok.1 h
    obtain ⟨happly, hlegal⟩ := derive_eq_ok hnext
    obtain ⟨hreshaped, hlast⟩ := ih (Reshaped.step t hn happly) h
    refine ⟨hreshaped, fun _ => ?_⟩
    cases ts with
    | nil =>
      cases h
      exact hlegal
    | cons u us => exact hlast (List.cons_ne_nil u us)

theorem reshaped_replay {m : Nest} {s : Schedule} (h : replay (Context.ofProgram p) s = .ok m) :
    Reshaped p m.roots ∧ (s ≠ [] → (Context.ofProgram p).checkLegal m.roots = .ok ()) := by
  obtain ⟨n, hn, h⟩ := bind_eq_ok.1 h
  obtain ⟨roots, hroots, hn⟩ := bind_eq_ok.1 (lift_eq_ok.1 hn)
  cases hn
  exact reshaped_deriveAll (n := { roots }) (Reshaped.initial hroots) h

end Nest

namespace Interpreter

variable {V : Type} {A : Arithmetic V}

theorem exists_runTree {roots : List Node} (ht : TidyAll p [] roots) {k : Kernel}
    (hk : Kernel.ofTree p roots = .ok k) {vs : List Visit} (hv : k.visits = .ok vs)
    (hin : ∀ v ∈ vs, ∀ a ∈ v.locations, Inside p a) {i : Inputs V} {values : List (Array V)}
    (hvalues : initialContents A i p.buffers = .ok values) (hshaped : p.Shaped values.toArray) :
    ∃ c, runTree A p roots i = .ok c ∧ p.Shaped c ∧
      memory A c = Visit.stepAll A p vs (memory A values.toArray) := by
  obtain ⟨t, htrace, hv⟩ := bind_eq_ok.1 hv
  obtain ⟨c, hc, hshaped', hmemory⟩ := exists_visitAll (A := A) (fun i hi => isOf_of_trace hk htrace hi) hv hin
    (computes_of_tidy ht hk htrace hv) hshaped
  refine ⟨c, ?_, hshaped', hmemory⟩
  rw [runTree, Outcome.mapRefusal_eq_ok.2 hk, ok_bind, run_eq_runOrder htrace, runOrder, hvalues, ok_bind, hc]

/-- Whatever schedule was replayed, its tree and the initial one run to their ends and leave the same contents
in every buffer. -/
theorem runTree_replay {description : Description} (hp : description.build = .ok p) (hfew : p.FewInstances)
    {s : Schedule} (hs : s ≠ []) {n : Nest} (h : Nest.replay (Context.ofProgram p) s = .ok n)
    {i : Inputs V} (hi : i.validate p = .ok ()) :
    ∃ roots c, p.nesting = .ok roots ∧ runTree A p roots i = .ok c ∧ runTree A p n.roots i = .ok c := by
  have hwf := Description.wellFormed_of_build hp
  obtain ⟨hreshaped, hlegal⟩ := Nest.reshaped_replay h
  obtain ⟨d, k, hd, hk, hcheck⟩ := Context.checkLegal_eq_ok.1 (hlegal hs)
  obtain ⟨initial, hinitial, hrecords⟩ := Dataflow.records_of_program hwf hfew hd
  obtain ⟨initial', vs, hinitial', hv, hfaithful⟩ := Dataflow.faithful_of_check hwf hfew hd hk hcheck
  cases hinitial.symm.trans hinitial'
  obtain ⟨roots, k₀, hroots, hk₀, hv₀⟩ := Program.initialVisits_eq_ok.1 hinitial
  obtain ⟨values, hvalues, hshaped⟩ := exists_initialContents (A := A) hi
  obtain ⟨c₀, hc₀, hshaped₀, hmemory₀⟩ :=
    exists_runTree (sound_of_nesting hwf hroots).1.tidy hk₀ hv₀ hrecords.inside hvalues hshaped
  obtain ⟨c, hc, hshaped', hmemory⟩ :=
    exists_runTree (hreshaped.sound hwf).tidy hk hv hfaithful.inside hvalues hshaped
  refine ⟨roots, c₀, hroots, hc₀, ?_⟩
  have hsame := hfaithful.stepAll_eq (A := A) (fun v hv => obeys_of_visits hk₀ hv₀ hv)
    (fun v hmem => obeys_of_visits hk hv hmem) (memory A values.toArray)
  rw [hc, contents_ext hshaped' hshaped₀]
  rw [hmemory, hmemory₀, hsame]

theorem runTree_replay_producerConsumer : ∃ n roots c,
    Nest.replay (Context.ofProgram ProducerConsumer.program)
      [.fuse "produce" "consume" "i", .parallelize "i"] = .ok n ∧
    ProducerConsumer.program.nesting = .ok roots ∧
    runTree .binary64 ProducerConsumer.program roots [("input", #[1.0, 2.0])] = .ok c ∧
    runTree .binary64 ProducerConsumer.program n.roots [("input", #[1.0, 2.0])] = .ok c := by
  have hfused := Nest.derive_of_legal (c := Context.ofProgram ProducerConsumer.program)
    (n := { roots := ProducerConsumer.separate }) (t := .fuse "produce" "consume" "i") rfl
    ProducerConsumer.checkLegal_fused.1
  have hparallel := Nest.derive_of_legal (c := Context.ofProgram ProducerConsumer.program)
    (n := ⟨ProducerConsumer.fused {}, [.fuse "produce" "consume" "i"], none⟩) (t := .parallelize "i") rfl
    ProducerConsumer.checkLegal_fused.2
  have hreplay : Nest.replay (Context.ofProgram ProducerConsumer.program)
      [.fuse "produce" "consume" "i", .parallelize "i"] = .ok _ :=
    bind_eq_ok.2 ⟨_, rfl, bind_eq_ok.2 ⟨_, hfused, bind_eq_ok.2 ⟨_, hparallel, rfl⟩⟩⟩
  obtain ⟨roots, c, hroots, hbefore, hafter⟩ := runTree_replay (A := .binary64) ProducerConsumer.build_eq
    ProducerConsumer.fewInstances (List.cons_ne_nil _ _) hreplay (i := [("input", #[1.0, 2.0])]) rfl
  exact ⟨_, roots, c, hreplay, hroots, hbefore, hafter⟩

end Interpreter

end LoopNest
