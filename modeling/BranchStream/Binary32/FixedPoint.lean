namespace BranchStream.Binary32.FixedPoint

variable (p : Nat)

def one : Int := (1 <<< p : Nat)

def mul (a b : Int) : Int := a * b / one p

def div (a b : Int) : Int := a * one p / b

def sqrt (a : Int) : Int := (a * one p).toNat.sqrt

/-- `1 + z / d k · (1 + z / d (k + 1) · (1 + …))` with `n` factors. -/
def factors (z : Int) (d : Nat → Nat) : (n k : Nat) → Int
  | 0, _ => one p
  | n + 1, k => one p + mul p z (factors z d n (k + 1)) / d k

/-- `1 / (2 k + 1) + z / (2 k + 3) + z² / (2 k + 5) + …` with `n` terms. -/
def oddSum (z : Int) : (n k : Nat) → Int
  | 0, _ => 0
  | n + 1, k => one p / (2 * k + 1 : Nat) + mul p z (oddSum z n (k + 1))

def exp (terms : Nat) (x : Int) : Int := factors p x (fun k ↦ k) terms 1

def sin (terms : Nat) (x : Int) : Int :=
  mul p x (factors p (-mul p x x) (fun k ↦ 2 * k * (2 * k + 1)) terms 1)

def cos (terms : Nat) (x : Int) : Int :=
  factors p (-mul p x x) (fun k ↦ (2 * k - 1) * (2 * k)) terms 1

def arctan (terms : Nat) (x : Int) : Int := mul p x (oddSum p (-mul p x x) terms 0)

def artanh (terms : Nat) (x : Int) : Int := mul p x (oddSum p (mul p x x) terms 0)

/-- The tangent of half the angle whose tangent is `x`. -/
def halfAngle (x : Int) : Int := div p x (one p + sqrt p (one p + mul p x x))

/-- `π = 16 arctan (1/5) - 4 arctan (1/239)`. -/
def pi (terms : Nat) : Int :=
  16 * arctan p terms (one p / 5) - 4 * arctan p terms (one p / 239)

def lnTwo (terms : Nat) : Int := 2 * artanh p terms (one p / 3)

end BranchStream.Binary32.FixedPoint
