import Libdap.Dap2.Variable

/-! # What `set_send_p` and `mark` set -/

namespace Libdap.Dap2
set_option autoImplicit false

/-- The flags of the variables in `P` are set to the state, and no other. -/
def Sets (state : Bool) (P : Addr → Prop) (flags' flags : Flags) : Prop :=
  ∀ b, (P b → flags' b = state) ∧ (¬ P b → flags' b = flags b)

def Within (v : Variable) (here b : Addr) : Prop := ∃ a u, b = here ++ a ∧ v.sub a = some u

def WithinAny (vars : List Variable) (here : Addr) (i : Nat) (b : Addr) : Prop :=
  ∃ j v, vars[j]? = some v ∧ Within v (here ++ [i + j]) b

theorem Sets.refl (state : Bool) (flags : Flags) : Sets state (fun _ => False) flags flags :=
  fun _ => ⟨False.elim, fun _ => rfl⟩

theorem Sets.trans {state : Bool} {P Q : Addr → Prop} {f g h : Flags} (hg : Sets state P g f)
    (hh : Sets state Q h g) : Sets state (fun b => Q b ∨ P b) h f := by
  intro b
  constructor
  · rintro (hQ | hP)
    · exact (hh b).1 hQ
    · by_cases hQ : Q b
      · exact (hh b).1 hQ
      · rw [(hh b).2 hQ, (hg b).1 hP]
  · intro hNeither
    obtain ⟨hQ, hP⟩ := not_or.mp hNeither
    rw [(hh b).2 hQ, (hg b).2 hP]

theorem Sets.congr {state : Bool} {P Q : Addr → Prop} {f g : Flags} (h : Sets state P g f)
    (hIff : ∀ b, Q b ↔ P b) : Sets state Q g f :=
  fun b => ⟨fun hQ => (h b).1 ((hIff b).mp hQ), fun hQ => (h b).2 (fun hP => hQ ((hIff b).mpr hP))⟩

theorem setFlag_sets (a : Addr) (state : Bool) (flags : Flags) :
    Sets state (fun b => b = a) (setFlag a state flags) flags := by
  intro b
  exact ⟨fun hAt => if_pos hAt, fun hOther => if_neg hOther⟩

theorem foldl_setFlag_sets (state : Bool) (s : Stack) (flags : Flags) :
    Sets state (fun b => b ∈ s) (s.foldl (fun flags p => setFlag p state flags) flags) flags := by
  induction s generalizing flags with
  | nil => exact (Sets.refl state flags).congr fun b => by simp
  | cons a s ih =>
    refine ((setFlag_sets a state flags).trans (ih _)).congr ?_
    intro b
    rw [List.mem_cons, or_comm]

theorem within_iff {v : Variable} {here b : Addr} :
    Within v here b ↔ b = here ∨ WithinAny v.parts here 0 b := by
  constructor
  · rintro ⟨a, u, rfl, hSub⟩
    cases a with
    | nil => exact .inl (List.append_nil here)
    | cons j a =>
      rw [Variable.sub] at hSub
      cases hAt : v.parts[j]? with
      | none => simp [hAt] at hSub
      | some part =>
        rw [hAt] at hSub
        exact .inr ⟨j, part, hAt, a, u, by simp, hSub⟩
  · rintro (rfl | ⟨j, part, hAt, a, u, rfl, hSub⟩)
    · exact ⟨[], v, (List.append_nil b).symm, rfl⟩
    · refine ⟨j :: a, u, by simp, ?_⟩
      rw [Variable.sub, hAt]
      exact hSub

theorem withinAny_cons {v : Variable} {vs : List Variable} {here b : Addr} {i : Nat} :
    WithinAny (v :: vs) here i b ↔ WithinAny vs here (i + 1) b ∨ Within v (here ++ [i]) b := by
  constructor
  · rintro ⟨j, u, hAt, hWithin⟩
    cases j with
    | zero =>
      cases hAt
      exact .inr hWithin
    | succ j => exact .inl ⟨j, u, hAt, by rwa [Nat.add_right_comm, Nat.add_assoc]⟩
  · rintro (⟨j, u, hAt, hWithin⟩ | hWithin)
    · exact ⟨j + 1, u, hAt, by rwa [← Nat.add_assoc, Nat.add_right_comm]⟩
    · exact ⟨0, v, rfl, hWithin⟩

theorem withinAny_nil {here b : Addr} {i : Nat} : ¬ WithinAny [] here i b := by
  rintro ⟨j, u, hAt, _⟩
  cases hAt

mutual

theorem setSendP_sets (state : Bool) (v : Variable) (here : Addr) (flags : Flags) :
    Sets state (Within v here) (setSendP state v here flags) flags := by
  cases v with
  | simple n =>
    refine (setFlag_sets here state flags).congr fun b => ?_
    rw [within_iff, or_iff_left_iff_imp]
    exact fun h => absurd h withinAny_nil
  | array n element =>
    refine ((setSendP_sets state element (here ++ [0]) flags).trans (setFlag_sets here state _)).congr
      fun b => ?_
    rw [within_iff, Variable.parts, withinAny_cons, or_iff_right withinAny_nil]
  | fields kind n vars =>
    refine ((setSendPs_sets state vars here 0 flags).trans (setFlag_sets here state _)).congr
      fun b => within_iff
  | grid n arrayVar mapVars =>
    refine (((setSendP_sets state arrayVar (here ++ [0]) flags).trans
      (setSendPs_sets state mapVars here 1 _)).trans (setFlag_sets here state _)).congr fun b => ?_
    rw [within_iff, Variable.parts, withinAny_cons]

theorem setSendPs_sets (state : Bool) (vars : List Variable) (here : Addr) (i : Nat) (flags : Flags) :
    Sets state (WithinAny vars here i) (setSendPs state vars here i flags) flags := by
  cases vars with
  | nil => exact (Sets.refl state flags).congr fun b => ⟨fun h => withinAny_nil h, False.elim⟩
  | cons v vs =>
    refine ((setSendP_sets state v (here ++ [i]) flags).trans
      (setSendPs_sets state vs here (i + 1) _)).congr fun b => withinAny_cons

end

theorem sub_append (v : Variable) (a b : Addr) :
    v.sub (a ++ b) = (v.sub a).bind fun u => u.sub b := by
  induction a generalizing v with
  | nil => rfl
  | cons i a ih =>
    rw [List.cons_append, Variable.sub, Variable.sub]
    cases v.parts[i]? with
    | none => rfl
    | some part => exact ih part

theorem locate_append {vars : List Variable} {v : Variable} {a : Addr} (h : locate vars a = some v)
    (b : Addr) : locate vars (a ++ b) = v.sub b := by
  cases a with
  | nil => cases h
  | cons i a =>
    rw [locate] at h
    rw [List.cons_append, locate]
    cases hAt : vars[i]? with
    | none => simp [hAt] at h
    | some w =>
      rw [hAt] at h
      dsimp only at h ⊢
      rw [sub_append, h]
      rfl

theorem within_iff_locate {vars : List Variable} {v : Variable} {a b : Addr}
    (h : locate vars a = some v) : Within v a b ↔ a <+: b ∧ ∃ u, locate vars b = some u := by
  constructor
  · rintro ⟨r, u, rfl, hSub⟩
    exact ⟨List.prefix_append a r, u, (locate_append h r).trans hSub⟩
  · rintro ⟨⟨r, rfl⟩, u, hLocate⟩
    exact ⟨r, u, rfl, (locate_append h r).symm.trans hLocate⟩

end Libdap.Dap2
