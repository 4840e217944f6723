namespace ModuleBundler.Text

/-- Whether one of the ranges, ends included, holds the number. -/
def inRanges (ranges : List (Nat × Nat)) (n : Nat) : Bool :=
  ranges.any fun range => range.1 ≤ n && n ≤ range.2

end ModuleBundler.Text
