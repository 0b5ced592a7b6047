import Mathlib.Order.Basic

/-!
# Layered envelopes

A core wrapped in one layer after another. `wraps h x y` says that `y` is `x` in one layer for
the hop `h`; `Layered wraps hs core y` says that `y` is `core` in the layers `hs`, the outermost
first. The layers come off one at a time (`Layered.cons_iff`), and a layer relation can be
weakened (`Layered.mono`).
-/

namespace Onion5

variable {γ α : Type*}

/-- `y` is `core` in the layers `hs`, outermost first. -/
def Layered (wraps : γ → α → α → Prop) : List γ → α → α → Prop
  | [], core, y => y = core
  | h :: hs, core, y => ∃ x, wraps h x y ∧ Layered wraps hs core x

namespace Layered

variable {wraps wraps' : γ → α → α → Prop} {h : γ} {hs hs' : List γ} {core x y : α}

theorem cons_iff :
    Layered wraps (h :: hs) core y ↔ ∃ x, wraps h x y ∧ Layered wraps hs core x := Iff.rfl

theorem refl (core : α) : Layered wraps [] core core := rfl

/-- One more layer outside. -/
theorem wrap (hw : wraps h x y) (hx : Layered wraps hs core x) : Layered wraps (h :: hs) core y :=
  ⟨x, hw, hx⟩

theorem mono (hle : ∀ h x y, wraps h x y → wraps' h x y) (hl : Layered wraps hs core y) :
    Layered wraps' hs core y := by
  induction hs generalizing y with
  | nil => exact hl
  | cons h hs ih =>
    obtain ⟨x, hw, hx⟩ := cons_iff.1 hl
    exact ⟨x, hle _ _ _ hw, ih hx⟩

end Layered

end Onion5
