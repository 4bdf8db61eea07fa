/-!
# SerialAta.Bus.Stalls

**Stalls**: whether the memory turns a request down for the moment.

The bus only needs someone to decide; `StallPolicy` is that. A `StallSource` decides at
random, one request in so many. What its random numbers are is left to a `RandomSource`.
-/

namespace SerialAta

/-- A source of stall decisions, one for each request on the bus. -/
class StallPolicy (σ : Type) where
  /-- The next decision, and the source after it. -/
  next : σ → Bool × σ

/-- A source of random numbers. -/
class RandomSource (ρ : Type) where
  /-- The source that a seed gives, the same each time. -/
  ofSeed : UInt64 → ρ
  /-- The next number below a bound other than zero, and the source after it. -/
  below : UInt32 → ρ → UInt32 × ρ

/-- Stalls at random. -/
structure StallSource (ρ : Type) where
  /-- One request in so many stalls; zero for none. -/
  oneIn : UInt32
  /-- Where the randomness comes from. -/
  source : ρ

namespace StallSource

variable {ρ : Type} [RandomSource ρ]

/-- Stalls of a seed, which can be repeated, or else of the randomness at hand. -/
def new (oneIn : UInt32) (seed : Option UInt64) (entropy : ρ) : StallSource ρ :=
  { oneIn
    source := match seed with
      | some seed => RandomSource.ofSeed seed
      | none => entropy }

/-- The next decision: a stall if the number drawn is zero. Without stalls nothing
is drawn. -/
def next (s : StallSource ρ) : Bool × StallSource ρ :=
  if s.oneIn = 0 then (false, s)
  else
    let (n, source) := RandomSource.below s.oneIn s.source
    (n == 0, { s with source })

instance : StallPolicy (StallSource ρ) := ⟨next⟩

end StallSource

end SerialAta
