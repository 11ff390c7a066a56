import Mathlib.Data.List.Basic
import Mathlib.Control.Monad.Basic

/-!
# Readers of token streams

A reader takes tokens off the front of a list and fails when there are too few. It decodes a list of
tokens to a value if it takes exactly these tokens, whatever follows them, and answers with the value.
The rules below follow the layout of a format.
-/

namespace Codec

variable {W β γ δ : Type}

abbrev Reader (W β : Type) := StateT (List W) Option β

def next : Reader W W := fun ws =>
  match ws with
  | [] => none
  | w :: ws => some (w, ws)

/-- Read `n` items, one after the other. -/
def replicate (r : Reader W β) : Nat → Reader W (List β)
  | 0 => pure []
  | n + 1 => do
    let x ← r
    let xs ← replicate r n
    pure (x :: xs)

/-- The next `n` tokens. -/
def take (n : Nat) : Reader W (List W) := replicate next n

/-- The reader takes the tokens `ws` and answers with `x`. -/
def Decodes (r : Reader W β) (ws : List W) (x : β) : Prop := ∀ rest, r (ws ++ rest) = some (x, rest)

variable {r : Reader W β} {ws vs : List W} {x : β}

theorem Decodes.eq (h : Decodes r ws x) : r ws = some (x, []) := by
  have hnil := h []
  rwa [List.append_nil] at hnil

theorem decodes_pure (x : β) : Decodes (pure x : Reader W β) [] x := fun _ => rfl

theorem decodes_next (w : W) : Decodes next [w] w := fun _ => rfl

theorem Decodes.bind {f : β → Reader W γ} {y : γ} (h : Decodes r ws x) (hf : Decodes (f x) vs y) :
    Decodes (r >>= f) (ws ++ vs) y := by
  intro rest
  show (r (ws ++ vs ++ rest)).bind (fun p => f p.1 p.2) = some (y, rest)
  rw [List.append_assoc, h (vs ++ rest), Option.bind_some]
  exact hf rest

theorem Decodes.bind_pure {f : β → γ} (h : Decodes r ws x) :
    Decodes (r >>= fun x => pure (f x)) ws (f x) := by
  have hbind := h.bind (f := fun x => pure (f x)) (decodes_pure (f x))
  rwa [List.append_nil] at hbind

theorem decodes_replicate {enc : δ → List W} {val : δ → β} {items : List δ} {n : Nat}
    (hn : items.length = n) (h : ∀ i ∈ items, Decodes r (enc i) (val i)) :
    Decodes (replicate r n) (items.flatMap enc) (items.map val) := by
  subst hn
  induction items with
  | nil => exact decodes_pure []
  | cons i items ih =>
    rw [List.flatMap_cons, List.map_cons, List.length_cons]
    apply (h i (List.mem_cons_self)).bind
    exact (ih fun j hj => h j (List.mem_cons_of_mem i hj)).bind_pure

theorem decodes_take {n : Nat} (hn : ws.length = n) : Decodes (take n) ws ws := by
  have hitems : Decodes (take n) (ws.flatMap fun w => [w]) (ws.map id) :=
    decodes_replicate hn fun w _ => decodes_next w
  rwa [List.map_id, List.flatMap_singleton'] at hitems

def Yields (r : Reader W β) (P : β → Prop) : Prop := ∀ ws x rest, r ws = some (x, rest) → P x

theorem yields_pure {P : β → Prop} {x : β} (h : P x) : Yields (pure x : Reader W β) P := by
  intro ws y rest hy
  cases hy
  exact h

theorem Yields.bind {P : β → Prop} {Q : γ → Prop} {f : β → Reader W γ} (h : Yields r P)
    (hf : ∀ x, P x → Yields (f x) Q) : Yields (r >>= f) Q := by
  intro ws y rest hy
  obtain ⟨⟨x, ws'⟩, hx, hy⟩ := Option.bind_eq_some_iff.mp hy
  exact hf x (h _ _ _ hx) _ _ _ hy

theorem yields_true (r : Reader W β) : Yields r fun _ => True := fun _ _ _ _ => trivial

theorem yields_replicate {P : β → Prop} (h : Yields r P) (n : Nat) :
    Yields (replicate r n) fun xs => ∀ x ∈ xs, P x := by
  induction n with
  | zero => exact yields_pure (by simp)
  | succ n ih =>
    refine h.bind ?_
    intro x hx
    refine ih.bind ?_
    intro xs hxs
    exact yields_pure (P := fun xs => ∀ x ∈ xs, P x) (List.forall_mem_cons.mpr ⟨hx, hxs⟩)

end Codec
