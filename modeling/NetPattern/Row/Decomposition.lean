import NetPattern.Fragment.Hextet
import NetPattern.Fragment.Octet
import NetPattern.Row.Basic

/-!
# Decomposing a range into rows

A range of addresses, given by the segments of its bounds, is split at the first segment where
the bounds differ: the lower segment with the rest from the lower bound on, the segments between
with any rest, and the upper segment with the rest up to the upper bound. Each part is a row or
is split again. The fragments of segments are asked for, so that whoever answers may keep them.
-/

namespace NetPattern

/-- How the segments of an address are written. -/
inductive SegmentForm
  | octet (padded : Bool)
  | hextet
deriving DecidableEq, Repr

namespace SegmentForm

/-- The form of the segments of a family. Only octets can be padded. -/
def of : Family → (padded : Bool) → SegmentForm
  | .v4, padded => octet padded
  | .v6, _ => hextet

/-- The largest segment. -/
def top : SegmentForm → Nat
  | octet _ => 255
  | hextet => 65535

/-- The fragment of all segments. -/
def any : SegmentForm → Fragment
  | octet padded => Fragment.anyOctet padded
  | hextet => Fragment.anyHextet

/-- The fragment of the segments from `low` to `high`; those of hextets are asked for. -/
def fragmentWith {m : Type → Type} [Monad m] (ask : Nat → Nat → m Fragment) :
    SegmentForm → (low high : Nat) → m Fragment
  | octet padded, low, high => pure (Fragment.octetRange padded low high)
  | hextet, low, high => ask low high

/-- The fragment of the segments from `low` to `high`. -/
def fragment (form : SegmentForm) (low high : Nat) : Fragment :=
  Id.run (form.fragmentWith Fragment.freshHextets low high)

end SegmentForm

namespace Row

/-- The row that matches any `width` segments. -/
def anything (form : SegmentForm) (width : Nat) : Row :=
  List.replicate width form.any

/-- The rows for the lists of `width` segments between two such lists, where `fragment` gives the
fragments of single segments and of the ranges between the bounds. -/
def decomposeWith {m : Type → Type} [Monad m] (fragment : Nat → Nat → m Fragment)
    (form : SegmentForm) : (width : Nat) → (low high : List Nat) → m (List Row)
  | width + 1, l :: low, h :: high =>
      if (l :: low).all (· = 0) ∧ (h :: high).all (· = form.top) then
        pure [anything form (width + 1)]
      else if l = h then do
        let only ← fragment l l
        let rows ← decomposeWith fragment form width low high
        pure (rows.map (only :: ·))
      else do
        let lowest ← fragment l l
        let below ← decomposeWith fragment form width low (List.replicate width form.top)
        let middle ←
          if l + 1 < h then do
            let between ← fragment (l + 1) (h - 1)
            pure [between :: anything form width]
          else pure []
        let highest ← fragment h h
        let above ← decomposeWith fragment form width (List.replicate width 0) high
        pure (below.map (lowest :: ·) ++ middle ++ above.map (highest :: ·)).eraseDups
  | _, _, _ => pure [[]]

/-- The rows for the lists of segments between two lists of one length. -/
def decompose (form : SegmentForm) (low high : List Nat) : List Row :=
  Id.run (decomposeWith (form.fragmentWith Fragment.freshHextets) form low.length low high)

end Row

end NetPattern
