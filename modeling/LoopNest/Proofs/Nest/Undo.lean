import LoopNest.Proofs.Nest.Saved
import LoopNest.Proofs.Transform.Involution

namespace LoopNest

open Node Kernel LoopNest.Flow

/-- Interchange is its own inverse on every tree that transformations lead to, and the way back is never
illegal. -/
theorem interchange_involutive {p : Program} (first second : String) :
    (∀ roots roots', Representation p roots →
      (Transformation.interchange first second).applyTo p roots = .ok roots' →
      (Transformation.interchange first second).applyTo p roots' = .ok roots) ∧
    ∀ (description : Description) (n m : Nest), description.build = .ok p →
      n.Reachable (Context.ofProgram p) →
      n.derive (Context.ofProgram p) (.interchange first second) = .ok m →
      m.derive (Context.ofProgram p) (.interchange first second) =
        .ok { roots := n.roots, applied := m.applied ++ [.interchange first second] } := by
  constructor
  · intro roots roots' hroots h
    exact interchange_interchange hroots.sound h
  · intro description n m hp hn h
    have hwf := Description.wellFormed_of_build hp
    obtain ⟨happly, hlegal⟩ := Nest.derive_eq_ok h
    have hback := interchange_interchange ((Nest.reshaped_of_reachable hn).sound hwf) happly
    obtain ⟨d, hd, hsmall⟩ := Context.size_le_of_checkLegal hlegal
    exact Nest.derive_of_legal hback (Nest.legal_of_reachable hwf hd hsmall hn)

namespace Rectangle

def description : Description where
  name := "rectangle"
  params := []
  buffers := [⟨"out", ["2", "3"], .float64, .output⟩]
  computations :=
    [{ name := "c"
       iterators := [⟨"i", "0", "2"⟩, ⟨"j", "0", "3"⟩]
       store := ⟨"out", ["i", "j"]⟩
       expr := .const 1.0 }]

def program : Program where
  name := "rectangle"
  params := []
  buffers := [⟨"out", [2, 3], .float64, .output⟩]
  computations :=
    [⟨"c", [⟨"i", .ofInt 0, .ofInt 2⟩, ⟨"j", .ofInt 0, .ofInt 3⟩], .const 1.0, ⟨0, [.var "i", .var "j"]⟩, none⟩]

def body : List Node := [.leaf ⟨0, [.var "i", .var "j"]⟩]

def rows : List Node :=
  [.loop ⟨"i", .ofInt 0, .ofInt 2, none, {}⟩ [.loop ⟨"j", .ofInt 0, .ofInt 3, none, {}⟩ body]]

def columns : List Node :=
  [.loop ⟨"j", .ofInt 0, .ofInt 3, none, {}⟩ [.loop ⟨"i", .ofInt 0, .ofInt 2, none, {}⟩ body]]

def visit (i j : Int) : Visit := ⟨(0, [i, j]), [], (0, some (3 * i + j).toNat), []⟩

def byRows : List Visit := [visit 0 0, visit 0 1, visit 0 2, visit 1 0, visit 1 1, visit 1 2]

def byColumns : List Visit := [visit 0 0, visit 1 0, visit 0 1, visit 1 1, visit 0 2, visit 1 2]

theorem build_eq : description.build = .ok program := rfl

theorem nesting_eq : program.nesting = .ok rows := rfl

theorem initialVisits_eq : program.initialVisits = .ok byRows := rfl

theorem exists_columns : ∃ k, Kernel.ofTree program columns = .ok k ∧ k.visits = .ok byColumns := ⟨_, rfl, rfl⟩

theorem checkLegal_columns : (Context.ofProgram program).checkLegal columns = .ok () := by
  obtain ⟨k, hk, hv⟩ := exists_columns
  exact Context.checkLegal_of_faithful (Description.wellFormed_of_build build_eq)
    (Program.fewInstances_of_visits initialVisits_eq (by decide)) initialVisits_eq (by decide) (by decide) hk hv
    (by decide)

end Rectangle

theorem interchange_involutive_rectangle :
    (Transformation.interchange "i" "j").applyTo Rectangle.program Rectangle.columns = .ok Rectangle.rows ∧
    ∃ n m : Nest, n.derive (Context.ofProgram Rectangle.program) (.interchange "i" "j") = .ok m ∧
      m.derive (Context.ofProgram Rectangle.program) (.interchange "i" "j") =
        .ok { roots := n.roots, applied := m.applied ++ [.interchange "i" "j"] } := by
  obtain ⟨happly, hderive⟩ := interchange_involutive (p := Rectangle.program) "i" "j"
  have hrows : Reshaped Rectangle.program Rectangle.rows := .initial Rectangle.nesting_eq
  have hswap : (Transformation.interchange "i" "j").applyTo Rectangle.program Rectangle.rows =
      .ok Rectangle.columns := rfl
  have hinitial : Nest.Reachable (Context.ofProgram Rectangle.program) ⟨Rectangle.rows, [], none⟩ := .initial rfl
  have hcolumns := Nest.derive_of_legal (n := ⟨Rectangle.rows, [], none⟩) hswap Rectangle.checkLegal_columns
  exact ⟨happly _ _ (representation_of_reshaped Rectangle.build_eq hrows) hswap,
    _, _, hcolumns, hderive _ _ _ Rectangle.build_eq hinitial hcolumns⟩

end LoopNest
