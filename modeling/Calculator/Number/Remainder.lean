/-! # Exact remainder

The remainder of a division truncated toward zero.  It has the sign of the dividend and is
always representable, so it is computed on integers and never rounded.
-/
namespace Calculator.Number
open Float.Model

def nan : Float := .ofModel (.pack .notANumber)

def remainder (x y : Float) : Float :=
  match x.toModel.unpack, y.toModel.unpack with
  | .finite s m₁ e₁ _, .finite _ m₂ e₂ _ =>
    let e := min e₁ e₂
    let r := (m₁ <<< (e₁ - e).toNat) % (m₂ <<< (e₂ - e).toNat)
    .ofModel (.pack (if r = 0 then .zero s else .round .binary64 s r e))
  | .finite .., .infinity _ => x
  | .zero _, .finite .. => x
  | .zero _, .infinity _ => x
  | _, _ => nan

end Calculator.Number
