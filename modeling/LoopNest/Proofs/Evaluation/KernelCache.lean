import LoopNest.Evaluation.KernelCache
import LoopNest.Proofs.Nest.Saved
import Mathlib.Data.List.DropRight

namespace LoopNest

def Program.NamedByWords (p : Program) : Prop :=
  (∀ c ∈ p.computations, Text.IsWord c.name) ∧ ∀ a ∈ p.iteratorNames, Text.IsWord a

theorem Program.Legible.namedByWords {p : Program} (h : p.Legible) : p.NamedByWords :=
  ⟨fun c hc => (h.1 c hc).isWord, fun a ha => (h.2 a ha).isWord⟩

namespace Nest

variable {p : Program}

theorem eq_of_text (hp : p.WellFormed) (hnames : p.NamedByWords) {n m : Nest}
    (hn : Reachable (Context.ofProgram p) n) (hm : Reachable (Context.ofProgram p) m)
    (htext : n.applied.text = m.applied.text) : { n with cost := none } = { m with cost := none } := by
  have hwords {k : Nest} (hk : Reachable (Context.ofProgram p) k) : ∀ t ∈ k.applied, ∀ a ∈ t.names, Text.IsWord a :=
    forall_names_applied hp hnames.1 hnames.2 Text.IsWord.of_extends hk
  have happlied := Schedule.text_injective (hwords hn) (hwords hm) htext
  apply Except.ok.inj (ε := Failure DeriveError)
  rw [← replay_applied hn, ← replay_applied hm, happlied]

end Nest

namespace KernelCache

variable {K : Type} {b : Backend K} {built : List (String × K)} {capacity builds : Nat}

section Holding

def cells (built : List (String × K)) : List (String × Option K) := built.map fun k => (k.1, some k.2)

def holding (capacity builds : Nat) (built : List (String × K)) : KernelCache K :=
  { capacity, kernels := cells built, order := built.map Prod.fst, builds }

@[simp]
theorem room_holding : (holding capacity builds built).room = max capacity 1 := rfl

theorem lookup_cells (key : String) : (cells built).lookup key = (built.lookup key).map some := by
  induction built with
  | nil => rfl
  | cons k built ih =>
    rw [cells, List.map_cons, List.lookup_cons, List.lookup_cons, ← cells, ih]
    cases key == k.1 <;> rfl

theorem lookup_eq_none {key : String} : built.lookup key = none ↔ key ∉ built.map Prod.fst := by
  simp only [List.lookup_eq_none_iff, bne_iff_ne, List.mem_map, not_exists, not_and]
  exact forall₂_congr fun k hk => ne_comm

section Free

variable {key : String} (hfree : key ∉ built.map Prod.fst)
include hfree

theorem key_ne {slot : String × Option K} (h : slot ∈ cells built) : slot.1 ≠ key := by
  obtain ⟨k, hk, rfl⟩ := List.mem_map.1 h
  rintro rfl
  exact hfree (List.mem_map_of_mem hk)

theorem filter_cells : (cells built).filter (fun slot => slot.1 != key) = cells built :=
  List.filter_eq_self.2 fun _ hslot => bne_iff_ne.2 (key_ne hfree hslot)

theorem remove_oldest {c : KernelCache K} {k : K} (hcells : c.kernels = cells ((key, k) :: built)) :
    c.remove key = { c with kernels := cells built } := by
  rw [remove, hcells, cells, List.map_cons, ← cells, List.filter_cons_of_neg (by simp), filter_cells hfree]

variable {c : KernelCache K} (hcells : c.kernels = cells built ++ [(key, none)])
include hcells

theorem remove_pending : c.remove key = { c with kernels := cells built } := by
  rw [remove, hcells, List.filter_append, filter_cells hfree, List.filter_cons_of_neg (by simp), List.filter_nil,
    List.append_nil]

theorem fill_pending (k : K) : c.fill key k = { c with kernels := cells (built ++ [(key, k)]) } := by
  have hold : ∀ slot ∈ cells built, (if slot.1 == key then (key, some k) else slot) = id slot := fun slot hslot =>
    if_neg (by simpa using key_ne hfree hslot)
  rw [fill, hcells, List.map_append, List.map_congr_left hold, List.map_id]
  simp [cells]

end Free

theorem evict_cells {c : KernelCache K} (hcells : c.kernels = cells built) (hnodup : (built.map Prod.fst).Nodup) :
    c.evict (built.map Prod.fst) = holding c.capacity c.builds (built.rtake c.room) := by
  induction built generalizing c with
  | nil => simp [evict, holding, hcells]
  | cons k built ih =>
    obtain ⟨hfree, hnodup⟩ := List.nodup_cons.1 hnodup
    rw [List.map_cons, evict, List.length_map]
    split
    · next hfull =>
      rw [remove_oldest hfree hcells, ih rfl hnodup]
      change holding c.capacity c.builds (built.rtake c.room) = _
      rw [List.rtake, List.rtake, List.length_cons, Nat.sub_add_comm (by omega), List.drop_succ_cons]
    · next hroom =>
      rw [List.rtake, List.length_cons, Nat.sub_eq_zero_of_le (by omega), List.drop_zero, holding, ← hcells]
      rfl

theorem kernel_holding (hnodup : (built.map Prod.fst).Nodup) (n : Nest) :
    (holding capacity builds built).kernel b n =
      match built.lookup n.applied.text with
      | some k => (holding capacity builds built, .ok k)
      | none =>
        match b.build n with
        | .ok k => (holding capacity (builds + 1) ((built ++ [(n.applied.text, k)]).rtake (max capacity 1)), .ok k)
        | .error e => (holding capacity (builds + 1) built, .error e) := by
  rw [kernel, cell, holding, lookup_cells]
  cases hlookup : built.lookup n.applied.text with
  | some k => rfl
  | none =>
    have hfree := lookup_eq_none.1 hlookup
    let pending : KernelCache K :=
      { holding capacity (builds + 1) built with kernels := cells built ++ [(n.applied.text, none)] }
    cases b.build n with
    | error e => exact congrArg (·, Except.error e) (remove_pending (c := pending) hfree rfl)
    | ok k =>
      have hfill := fill_pending (c := pending) hfree rfl k
      have hnodup : ((built ++ [(n.applied.text, k)]).map Prod.fst).Nodup := by
        rw [List.map_append, List.nodup_append_comm]
        exact List.nodup_cons.2 ⟨hfree, hnodup⟩
      have hevict := evict_cells (c := pending.fill n.applied.text k) (congrArg kernels hfill) hnodup
      rw [List.map_append] at hevict
      exact congrArg (·, Except.ok k) hevict

end Holding

section Answers

variable {cfg : TimingPlan} {c c' : KernelCache K} {n : Nest}

theorem evaluate_fst : (c.evaluate b cfg n).1 = (c.kernel b n).1 := by
  rw [evaluate]
  split <;> simp_all

theorem evaluate_snd_congr (h : (c.kernel b n).2 = (c'.kernel b n).2) :
    (c.evaluate b cfg n).2 = (c'.evaluate b cfg n).2 := by
  obtain ⟨d, hd⟩ : ∃ d, c.kernel b n = (d, (c'.kernel b n).2) := ⟨_, Prod.ext rfl h⟩
  rw [evaluate, evaluate, hd]
  rcases c'.kernel b n with ⟨d', _ | k⟩
  · next e => cases e <;> rfl
  · rfl

theorem mem_of_lookup {key : String} {k : K} (h : built.lookup key = some k) : (key, k) ∈ built := by
  obtain ⟨l, l', rfl, -⟩ := List.lookup_eq_some_iff.1 h
  exact List.mem_append_right _ List.mem_cons_self

theorem kernel_snd_holding (hnodup : (built.map Prod.fst).Nodup)
    (hbuilt : ∀ k ∈ built, k.1 = n.applied.text → b.build n = .ok k.2) :
    ((holding capacity builds built).kernel b n).2 = b.build n := by
  rw [kernel_holding hnodup]
  cases hlookup : built.lookup n.applied.text with
  | some k => exact (hbuilt _ (mem_of_lookup hlookup) rfl).symm
  | none => cases b.build n <;> rfl

end Answers

section Calls

def logged (b : Backend K) (room : Nat) (log : List (String × K)) (n : Nest) : List (String × K) :=
  if n.applied.text ∈ (log.rtake room).map Prod.fst then log
  else match b.build n with
    | .ok k => log ++ [(n.applied.text, k)]
    | .error _ => log

def buildLog (b : Backend K) (room : Nat) (calls : List Nest) : List (String × K) := calls.foldl (logged b room) []

def afterCalls (b : Backend K) (cfg : TimingPlan) (c : KernelCache K) (calls : List Nest) : KernelCache K :=
  calls.foldl (fun c n => (c.evaluate b cfg n).1) c

theorem rtake_rtake_concat (log : List (String × K)) (k : String × K) {room : Nat} (hroom : 0 < room) :
    (log.rtake room ++ [k]).rtake room = (log ++ [k]).rtake room := by
  obtain ⟨room, rfl⟩ := Nat.exists_eq_succ_of_ne_zero hroom.ne'
  rw [List.rtake_concat_succ, List.rtake_concat_succ, List.append_left_inj, List.rtake, List.rtake, List.rtake,
    List.drop_drop, List.length_drop]
  congr 1
  omega

variable {log : List (String × K)} {n : Nest}

theorem nodup_logged {room : Nat} (hroom : 0 < room) (hnodup : ((log.rtake room).map Prod.fst).Nodup) :
    (((logged b room log n).rtake room).map Prod.fst).Nodup := by
  rw [logged]
  split
  · exact hnodup
  · next hfree =>
    split
    · rw [← rtake_rtake_concat log _ hroom]
      apply ((List.drop_sublist _ _).map Prod.fst).nodup
      rw [List.map_append, List.nodup_append_comm]
      exact List.nodup_cons.2 ⟨hfree, hnodup⟩
    · exact hnodup

theorem mem_logged {room : Nat} {k : String × K} (h : k ∈ logged b room log n) :
    k ∈ log ∨ k.1 = n.applied.text ∧ b.build n = .ok k.2 := by
  rw [logged] at h
  split at h
  · exact .inl h
  · split at h
    · next hbuild =>
      rcases List.mem_append.1 h with h | h
      · exact .inl h
      · obtain rfl := List.mem_singleton.1 h
        exact .inr ⟨rfl, hbuild⟩
    · exact .inl h

theorem kernel_fst_holding (hnodup : ((log.rtake (max capacity 1)).map Prod.fst).Nodup) :
    ∃ builds', ((holding capacity builds (log.rtake (max capacity 1))).kernel b n).1 =
      holding capacity builds' ((logged b (max capacity 1) log n).rtake (max capacity 1)) := by
  rw [kernel_holding hnodup, logged]
  cases hlookup : (log.rtake (max capacity 1)).lookup n.applied.text with
  | some k =>
    rw [if_pos (List.mem_map_of_mem (mem_of_lookup hlookup))]
    exact ⟨builds, rfl⟩
  | none =>
    rw [if_neg (lookup_eq_none.1 hlookup)]
    cases b.build n with
    | ok k =>
      exact ⟨builds + 1,
        congrArg (holding capacity (builds + 1)) (rtake_rtake_concat log _ (Nat.le_max_right capacity 1))⟩
    | error e => exact ⟨builds + 1, rfl⟩

theorem buildLog_concat (room : Nat) (calls : List Nest) :
    buildLog b room (calls ++ [n]) = logged b room (buildLog b room calls) n := by
  rw [buildLog, List.foldl_append]
  rfl

theorem afterCalls_concat (cfg : TimingPlan) (c : KernelCache K) (calls : List Nest) :
    c.afterCalls b cfg (calls ++ [n]) = ((c.afterCalls b cfg calls).kernel b n).1 := by
  rw [afterCalls, List.foldl_append]
  exact evaluate_fst

theorem afterCalls_eq (cfg : TimingPlan) (calls : List Nest) :
    (∃ builds, afterCalls b cfg { capacity } calls =
      holding capacity builds ((buildLog b (max capacity 1) calls).rtake (max capacity 1))) ∧
    (((buildLog b (max capacity 1) calls).rtake (max capacity 1)).map Prod.fst).Nodup := by
  induction calls using List.reverseRecOn with
  | nil => simpa [buildLog] using ⟨0, rfl⟩
  | append_singleton calls n ih =>
    obtain ⟨⟨builds, hafter⟩, hnodup⟩ := ih
    rw [afterCalls_concat, buildLog_concat, hafter]
    exact ⟨kernel_fst_holding hnodup, nodup_logged (Nat.le_max_right capacity 1) hnodup⟩

theorem mem_buildLog {room : Nat} {calls : List Nest} {k : String × K} (h : k ∈ buildLog b room calls) :
    ∃ m ∈ calls, k.1 = m.applied.text ∧ b.build m = .ok k.2 := by
  induction calls using List.reverseRecOn with
  | nil => cases h
  | append_singleton calls n ih =>
    rw [buildLog_concat] at h
    rcases mem_logged h with h | h
    · obtain ⟨m, hm, hk⟩ := ih h
      exact ⟨m, List.mem_append_left _ hm, hk⟩
    · exact ⟨n, List.mem_append_right _ List.mem_cons_self, h⟩

end Calls

/-- The cache changes no answer. Whatever calls were made before, one more call answers as with an empty cache; the
cells and the queue hold the same keys, those of the last successful builds in the order of these builds, and never
more than there is room for; and a failed build leaves them all as they were. -/
theorem transparent_and_bounded {description : Description} {p : Program} (hp : description.build = .ok p)
    (hnames : p.NamedByWords) {K : Type} {b : Backend K}
    (hcost : ∀ m : Nest, b.build { m with cost := none } = b.build m)
    (cfg : TimingPlan) (capacity : Nat) {calls : List Nest} {n : Nest}
    (hcalls : ∀ m ∈ calls, Nest.Reachable (Context.ofProgram p) m) (hn : Nest.Reachable (Context.ofProgram p) n) :
    let c := afterCalls b cfg { capacity } calls
    let recent := (buildLog b (max capacity 1) calls).rtake (max capacity 1)
    (c.evaluate b cfg n).2 = (evaluate b cfg { capacity } n).2 ∧
    c.order = recent.map Prod.fst ∧ c.kernels = recent.map (fun k => (k.1, some k.2)) ∧
    c.order.Nodup ∧ c.order.length ≤ max capacity 1 ∧
    ∀ e, b.build n = .error e → (c.evaluate b cfg n).1 = { c with builds := c.builds + 1 } := by
  obtain ⟨⟨builds, hafter⟩, hnodup⟩ := @afterCalls_eq K b capacity cfg calls
  -- a schedule tells its tree, so what is kept under the text was built for this nest
  have hbuilt : ∀ k ∈ (buildLog b (max capacity 1) calls).rtake (max capacity 1), k.1 = n.applied.text →
      b.build n = .ok k.2 := by
    intro k hk hkey
    obtain ⟨m, hm, htext, hbuild⟩ := mem_buildLog (List.mem_of_mem_drop hk)
    have hsame := Nest.eq_of_text (Description.wellFormed_of_build hp) hnames hn (hcalls m hm) (hkey.symm.trans htext)
    rw [← hbuild, ← hcost n, hsame, hcost m]
  rw [hafter]
  refine ⟨evaluate_snd_congr ?_, rfl, rfl, hnodup, ?_, fun e he => ?_⟩
  · rw [kernel_snd_holding hnodup hbuilt]
    exact (@kernel_snd_holding K b [] capacity 0 n List.nodup_nil (by simp)).symm
  · rw [holding, List.length_map, List.rtake, List.length_drop]
    omega
  · rw [evaluate_fst, kernel_holding hnodup]
    cases hlookup : List.lookup n.applied.text ((buildLog b (max capacity 1) calls).rtake (max capacity 1)) with
    | some k =>
      have hok := hbuilt _ (mem_of_lookup hlookup) rfl
      rw [he] at hok
      cases hok
    | none =>
      rw [he]
      rfl

theorem transparent_and_bounded_producerConsumer :
    ∃ (b : Backend Nat) (initial fused parallel : Nest) (cfg : TimingPlan),
    fused.applied = [.fuse "produce" "consume" "i"] ∧
    parallel.applied = [.fuse "produce" "consume" "i", .parallelize "i"] ∧
    b.build fused = .error (.kernel "no") ∧
    let c := afterCalls b cfg { capacity := 0 } [initial, fused, parallel]
    c.order = ["fuse produce consume i\nparallelize i\n"] ∧
    c.kernels = [("fuse produce consume i\nparallelize i\n", some 2)] ∧
    (c.evaluate b cfg initial).2 = (evaluate b cfg { capacity := 0 } initial).2 ∧
    (c.evaluate b cfg fused).1 = { c with builds := c.builds + 1 } := by
  let b : Backend Nat :=
    { name := "depth"
      build n := if n.depth = 1 then .error (.kernel "no") else .ok n.depth
      measure k runs := .ok (List.replicate runs k) }
  obtain ⟨hinitial, hfused, hparallel⟩ := ProducerConsumer.reachable
  have hcalls := List.forall_mem_cons.2
    ⟨hinitial, List.forall_mem_cons.2 ⟨hfused, List.forall_mem_singleton.2 hparallel⟩⟩
  have hlegible : ProducerConsumer.program.Legible := ⟨by decide +kernel, by decide +kernel⟩
  have hall {n : Nest} := transparent_and_bounded ProducerConsumer.build_eq hlegible.namedByWords (b := b)
    (fun m => rfl) { runs := 1 } 0 hcalls (n := n)
  obtain ⟨hanswer, horder, hkernels, -⟩ := hall hinitial
  obtain ⟨-, -, -, -, -, hfailed⟩ := hall hfused
  exact ⟨b, _, _, _, _, rfl, rfl, rfl, horder.trans (by decide +kernel), hkernels.trans (by decide +kernel),
    hanswer, hfailed _ rfl⟩

end KernelCache

end LoopNest
