import Mathlib.Order.WellFounded
import Mathlib.Data.Fintype.Card

/-!
# Rooted flow graphs and their natural loops

A flow graph is a directed graph in which every vertex is reachable from the root. This module has the
dominance and natural loop theory an analysis over such a graph rests on: dominance is a partial order,
linear above a vertex; a natural loop is entered by its header only; two natural loops that meet are
nested; and every vertex is reached from its dominators by forward edges.
-/

namespace Otawa

open Relation

universe u

/-- A directed graph whose vertices are all reachable from the root. -/
structure Flowgraph (V : Type u) where
  edge : V → V → Prop
  root : V
  reach : ∀ v, ReflTransGen edge root v

namespace Flowgraph

variable {V : Type u} (G : Flowgraph V)

/-- There is a path from `a` to `b` none of whose vertices is `d`. -/
def Avoids (d a b : V) : Prop :=
  a ≠ d ∧ ReflTransGen (fun x y => G.edge x y ∧ y ≠ d) a b

/-- Every path from the root to `b` visits `d`. -/
def Dominates (d b : V) : Prop :=
  ¬ G.Avoids d G.root b

/-- An edge to a dominator of its source. -/
def Back (a b : V) : Prop :=
  G.edge a b ∧ G.Dominates b a

/-- An edge that is no back edge. -/
def Forward (a b : V) : Prop :=
  G.edge a b ∧ ¬ G.Dominates b a

/-- A loop header is the target of a back edge. -/
def Header (h : V) : Prop :=
  ∃ a, G.Back a h

/-- The natural loop of `h`: `h` and the vertices that reach the source of a back edge to `h` without
visiting `h`. -/
def InLoop (h b : V) : Prop :=
  b = h ∨ ∃ a, G.Back a h ∧ G.Avoids h b a

/-- A flow graph is reducible when its forward edges make no cycle. -/
def Reducible : Prop :=
  ∀ v, ¬ TransGen G.Forward v v

variable {G} {a b c d h k : V}

/-! ### Paths around a vertex -/

namespace Avoids

theorem refl (hne : a ≠ d) : G.Avoids d a a :=
  ⟨hne, .refl⟩

theorem target_ne (hab : G.Avoids d a b) : b ≠ d := by
  obtain ⟨hne, hpath⟩ := hab
  cases hpath with
  | refl => exact hne
  | tail _ hstep => exact hstep.2

theorem trans (hab : G.Avoids d a b) (hbc : G.Avoids d b c) : G.Avoids d a c :=
  ⟨hab.1, hab.2.trans hbc.2⟩

theorem tail (hab : G.Avoids d a b) (hbc : G.edge b c) (hne : c ≠ d) : G.Avoids d a c :=
  ⟨hab.1, hab.2.tail ⟨hbc, hne⟩⟩

theorem head (hne : a ≠ d) (hab : G.edge a b) (hbc : G.Avoids d b c) : G.Avoids d a c :=
  ⟨hne, .head ⟨hab, hbc.1⟩ hbc.2⟩

end Avoids

/-- A path either misses a vertex or goes through it. -/
theorem path_through {S : V → V → Prop} (d : V) (hpath : ReflTransGen S a b) :
    (a ≠ d ∧ ReflTransGen (fun x y => S x y ∧ y ≠ d) a b) ∨ (ReflTransGen S a d ∧ ReflTransGen S d b) := by
  induction hpath with
  | refl =>
    by_cases had : a = d
    · subst had
      exact .inr ⟨.refl, .refl⟩
    · exact .inl ⟨had, .refl⟩
  | @tail b c hab hbc ih =>
    obtain ⟨hne, hmiss⟩ | ⟨had, hdb⟩ := ih
    · by_cases hcd : c = d
      · subst hcd
        exact .inr ⟨hab.tail hbc, .refl⟩
      · exact .inl ⟨hne, hmiss.tail ⟨hbc, hcd⟩⟩
    · exact .inr ⟨had, hdb.tail hbc⟩

/-- Of two vertices one is visited first on a path that visits either. -/
theorem first_of_two (hne : c ≠ d) (hpath : ReflTransGen G.edge a b) :
    (G.Avoids c a b ∧ G.Avoids d a b) ∨ G.Avoids c a d ∨ G.Avoids d a c := by
  induction hpath with
  | refl =>
    by_cases hac : a = c
    · subst hac
      exact .inr (.inr (.refl hne))
    · by_cases had : a = d
      · subst had
        exact .inr (.inl (.refl hne.symm))
      · exact .inl ⟨.refl hac, .refl had⟩
  | @tail b e _ hbe ih =>
    obtain ⟨hc, hd⟩ | hfirst := ih
    · by_cases hec : e = c
      · subst hec
        exact .inr (.inr (hd.tail hbe hne))
      · by_cases hed : e = d
        · subst hed
          exact .inr (.inl (hc.tail hbe hne.symm))
        · exact .inl ⟨hc.tail hbe hec, hd.tail hbe hed⟩
    · exact .inr hfirst

/-- Of two vertices one is visited last on a path that visits either. -/
theorem last_of_two (hne : c ≠ d) (hpath : ReflTransGen G.edge a b) :
    (G.Avoids c a b ∧ G.Avoids d a b) ∨ G.Avoids c d b ∨ G.Avoids d c b := by
  induction hpath using ReflTransGen.head_induction_on with
  | refl =>
    by_cases hbc : b = c
    · subst hbc
      exact .inr (.inr (.refl hne))
    · by_cases hbd : b = d
      · subst hbd
        exact .inr (.inl (.refl hne.symm))
      · exact .inl ⟨.refl hbc, .refl hbd⟩
  | @head a e hae _ ih =>
    obtain ⟨hc, hd⟩ | hlast := ih
    · by_cases hac : a = c
      · subst hac
        exact .inr (.inr (.head hne hae hd))
      · by_cases had : a = d
        · subst had
          exact .inr (.inl (.head hne.symm hae hc))
        · exact .inl ⟨.head hac hae hc, .head had hae hd⟩
    · exact .inr hlast

/-! ### Dominance -/

theorem dominates_refl (b : V) : G.Dominates b b :=
  fun havoid => havoid.target_ne rfl

theorem Dominates.antisymm (hab : G.Dominates a b) (hba : G.Dominates b a) : a = b := by
  by_contra hne
  obtain ⟨-, hb⟩ | hfirst | hfirst := first_of_two hne (G.reach b)
  · exact hb.target_ne rfl
  · exact hab hfirst
  · exact hba hfirst

/-- The dominators of a vertex are linearly ordered. -/
theorem Dominates.total (hac : G.Dominates a c) (hbc : G.Dominates b c) : G.Dominates a b ∨ G.Dominates b a := by
  by_contra! hnone
  obtain ⟨hab, hba⟩ := hnone
  have hne : a ≠ b := by
    rintro rfl
    exact hab (dominates_refl a)
  obtain ⟨ha, -⟩ | hlast | hlast := last_of_two hne (G.reach c)
  · exact hac ha
  · exact hac ((not_not.mp hab).trans hlast)
  · exact hbc ((not_not.mp hba).trans hlast)

/-! ### Forward edges -/

theorem back_or_forward (hab : G.edge a b) : G.Back a b ∨ G.Forward a b := by
  by_cases hdom : G.Dominates b a
  · exact .inl ⟨hab, hdom⟩
  · exact .inr ⟨hab, hdom⟩

/-- Every vertex is reached from the root by forward edges. -/
theorem forward_reach (b : V) : ReflTransGen G.Forward G.root b := by
  induction G.reach b with
  | refl => exact .refl
  | @tail c e _ hce ih =>
    obtain hback | hforward := back_or_forward hce
    · obtain ⟨hne, hmiss⟩ | ⟨hae, -⟩ := path_through e ih
      · refine absurd ⟨hne, ?_⟩ hback.2
        exact ReflTransGen.mono (fun _ _ hstep => ⟨hstep.1.1, hstep.2⟩) _ _ hmiss
      · exact hae
    · exact ih.tail hforward

/-- A vertex is reached from each of its dominators by forward edges. -/
theorem Dominates.forward_path (hdom : G.Dominates d b) : ReflTransGen G.Forward d b := by
  obtain ⟨hne, hmiss⟩ | ⟨-, hdb⟩ := path_through d (forward_reach (G := G) b)
  · exact absurd ⟨hne, ReflTransGen.mono (fun _ _ hstep => ⟨hstep.1.1, hstep.2⟩) _ _ hmiss⟩ hdom
  · exact hdb

theorem exists_forward (hne : b ≠ G.root) : ∃ a, G.Forward a b := by
  obtain heq | ⟨a, -, hab⟩ := (ReflTransGen.cases_tail_iff _ _ _).mp (forward_reach (G := G) b)
  · exact absurd heq hne
  · exact ⟨a, hab⟩

/-! ### Natural loops -/

theorem inLoop_self (h : V) : G.InLoop h h :=
  .inl rfl

theorem Back.inLoop (hback : G.Back a h) : G.InLoop h a := by
  by_cases hah : a = h
  · exact .inl hah
  · exact .inr ⟨a, hback, .refl hah⟩

theorem InLoop.dominates (hin : G.InLoop h b) : G.Dominates h b := by
  obtain rfl | ⟨a, hback, hba⟩ := hin
  · exact dominates_refl _
  · exact fun havoid => hback.2 (havoid.trans hba)

/-- A natural loop is entered by its header only. -/
theorem InLoop.of_edge (hin : G.InLoop h b) (hab : G.edge a b) (hne : b ≠ h) : G.InLoop h a := by
  obtain rfl | ⟨c, hback, hbc⟩ := hin
  · exact absurd rfl hne
  · by_cases hah : a = h
    · exact .inl hah
    · exact .inr ⟨c, hback, .head hah hab hbc⟩

/-- An edge from within a loop to its header is a back edge. -/
theorem InLoop.back (hin : G.InLoop h a) (hah : G.edge a h) : G.Back a h :=
  ⟨hah, hin.dominates⟩

theorem InLoop.antisymm (hin : G.InLoop h b) (hin' : G.InLoop b h) : h = b :=
  hin.dominates.antisymm hin'.dominates

/-- A loop whose header lies in another loop lies in it whole. -/
theorem InLoop.trans (hk : G.InLoop h k) (hb : G.InLoop k b) : G.InLoop h b := by
  by_cases hkh : k = h
  · subst hkh
    exact hb
  obtain rfl | ⟨u, hback, hku⟩ := hk
  · exact absurd rfl hkh
  obtain rfl | ⟨w, hbackw, hbw⟩ := hb
  · exact .inr ⟨u, hback, hku⟩
  have hink : G.InLoop h k := .inr ⟨u, hback, hku⟩
  suffices havoid : G.Avoids h b w from .inr ⟨u, hback, (havoid.tail hbackw.1 hkh).trans hku⟩
  -- a vertex of the inner loop is no header of the outer one, or the two headers would be one
  have houter : ∀ x, G.InLoop k x → x ≠ h := fun x hx hxh => hkh (InLoop.antisymm (hxh ▸ hx) hink)
  obtain ⟨hbk, hpath⟩ := hbw
  clear hku hink
  induction hpath using ReflTransGen.head_induction_on with
  | refl => exact .refl (houter w (.inr ⟨w, hbackw, .refl hbk⟩))
  | @head x y hxy hyw ih =>
    exact .head (houter x (.inr ⟨w, hbackw, ⟨hbk, .head hxy hyw⟩⟩)) hxy.1 (ih hxy.2)

/-- Two natural loops that meet are nested. -/
theorem InLoop.nested (hb : G.InLoop h b) (hb' : G.InLoop k b) : G.InLoop h k ∨ G.InLoop k h := by
  wlog hdom : G.Dominates h k generalizing h k
  · have hdom' := (hb.dominates.total hb'.dominates).resolve_left hdom
    exact (this hb' hb hdom').symm
  left
  by_cases hkh : k = h
  · exact .inl hkh
  obtain rfl | ⟨u, hback, hbu⟩ := hb
  · exact .inl (hb'.dominates.antisymm hdom)
  refine .inr ⟨u, hback, ?_⟩
  obtain ⟨hmiss, -⟩ | hlast | hlast := last_of_two (Ne.symm hkh) (G.reach b)
  · exact absurd hmiss (InLoop.dominates (.inr ⟨u, hback, hbu⟩))
  · exact hlast.trans hbu
  · have hnot : ¬ G.Dominates k h := fun hk => hkh (hk.antisymm hdom)
    exact absurd ((not_not.mp hnot).trans hlast) hb'.dominates

/-- A loop's header comes before the rest of the loop along forward edges. -/
theorem InLoop.forward_path (hin : G.InLoop h b) (hne : b ≠ h) : TransGen G.Forward h b := by
  obtain heq | hpath := reflTransGen_iff_eq_or_transGen.mp hin.dominates.forward_path
  · exact absurd heq hne
  · exact hpath

theorem Reducible.wellFounded [Finite V] (hred : G.Reducible) : WellFounded (TransGen G.Forward) :=
  letI : IsTrans V (TransGen G.Forward) := ⟨fun _ _ _ => TransGen.trans⟩
  letI : Std.Irrefl (TransGen G.Forward) := ⟨hred⟩
  Finite.wellFounded_of_trans_of_irrefl _

theorem Reducible.wellFounded_swap [Finite V] (hred : G.Reducible) :
    WellFounded (Function.swap (TransGen G.Forward)) :=
  letI : IsTrans V (Function.swap (TransGen G.Forward)) := ⟨fun _ _ _ hab hbc => hbc.trans hab⟩
  letI : Std.Irrefl (Function.swap (TransGen G.Forward)) := ⟨hred⟩
  Finite.wellFounded_of_trans_of_irrefl _

end Flowgraph

end Otawa
