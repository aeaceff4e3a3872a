/-!
# Memory

Bytes by address. Words are stored with the most significant byte first and need no alignment. The
range of an access is checked in word arithmetic, which wraps: an access that ends past the largest
address passes the check and then fails on the bytes themselves.

A memory starts with the bytes of a program and is zero behind them. Only the bytes up to the last one
that was written are kept, so that a memory may be far larger than what is used of it.
-/

namespace MoonBackend

/-- The memory of the machine. What lies behind the bytes that are kept is zero. -/
structure Memory where
  bytes : Array UInt8
  size : Nat
  fits : bytes.size ≤ size

inductive AccessError where
  /-- The check found the range outside the memory. -/
  | outOfRange
  /-- The check wrapped around, and the bytes are not there. -/
  | overrun
  deriving DecidableEq

/-- The byte of a word that starts at the given bit. -/
def byteAt (v : Int32) (bit : UInt32) : UInt8 := (v.toUInt32 >>> bit).toUInt8

/-- The word of four bytes, the most significant first. -/
def wordOfBytes (b0 b1 b2 b3 : UInt8) : Int32 :=
  (b0.toUInt32 <<< 24 ||| b1.toUInt32 <<< 16 ||| b2.toUInt32 <<< 8 ||| b3.toUInt32).toInt32

namespace Memory

/-- So many bytes, of which the first ones are given. -/
def ofData (data : Array UInt8) (size : Nat) : Memory :=
  ⟨data.take size, size, by rw [Array.take_eq_extract, Array.size_extract]; omega⟩

def get (m : Memory) (i : Nat) : UInt8 := m.bytes.getD i 0

/-- The memory with a byte written, if there is such a position and the byte is not there already. -/
def set (m : Memory) (i : Nat) (b : UInt8) : Memory :=
  if h : i < m.size ∧ m.get i ≠ b then
    { m with
      bytes := (m.bytes ++ Array.replicate (i + 1 - m.bytes.size) 0).setIfInBounds i b
      fits := by
        have := m.fits
        simp only [Array.size_setIfInBounds, Array.size_append, Array.size_replicate]
        omega }
  else m

instance : GetElem? Memory Nat UInt8 fun m i => i < m.size where
  getElem m i _ := m.get i
  getElem? m i := if i < m.size then some (m.get i) else none

def extract (m : Memory) (start stop : Nat) : Array UInt8 :=
  ((List.range (min stop m.size - start)).map fun i => m.get (start + i)).toArray

@[simp]
theorem size_ofData (data : Array UInt8) (size : Nat) : (ofData data size).size = size := rfl

@[simp]
theorem size_set (m : Memory) (i : Nat) (b : UInt8) : (m.set i b).size = m.size := by
  unfold set
  split <;> rfl

/-- Checks an access to the `n` bytes at an address. -/
def check (m : Memory) (addr n : Int32) : Except AccessError Unit :=
  if addr < 0 || Int32.ofNat m.size < addr + n then .error .outOfRange
  else if m.size < addr.toNatClampNeg + n.toNatClampNeg then .error .overrun
  else .ok ()

def loadByte (m : Memory) (addr : Int32) : Except AccessError UInt8 :=
  (m.check addr 1).map fun _ => m.get addr.toNatClampNeg

def loadWord (m : Memory) (addr : Int32) : Except AccessError Int32 :=
  (m.check addr 4).map fun _ =>
    let a := addr.toNatClampNeg
    wordOfBytes (m.get a) (m.get (a + 1)) (m.get (a + 2)) (m.get (a + 3))

def putByte (m : Memory) (addr : Int32) (b : UInt8) : Memory :=
  m.set addr.toNatClampNeg b

@[simp]
theorem size_putByte (m : Memory) (addr : Int32) (b : UInt8) : (m.putByte addr b).size = m.size := by
  simp [putByte]

def putWord (m : Memory) (addr v : Int32) : Memory :=
  let a := addr.toNatClampNeg
  (((m.set a (byteAt v 24)).set (a + 1) (byteAt v 16)).set (a + 2) (byteAt v 8)).set (a + 3)
    (byteAt v 0)

@[simp]
theorem size_putWord (m : Memory) (addr v : Int32) : (m.putWord addr v).size = m.size := by
  simp [putWord]

/-- Writes bytes from an address upwards, up to the first that is refused. The answer tells the
address that was refused. -/
def putBytes : Memory → Int32 → List UInt8 → Option (Int32 × AccessError) × Memory
  | m, _, [] => (none, m)
  | m, addr, b :: bs =>
    match m.check addr 1 with
    | .error e => (some (addr, e), m)
    | .ok () => putBytes (m.putByte addr b) (addr + 1) bs

@[simp]
theorem size_putBytes (m : Memory) (addr : Int32) (bs : List UInt8) :
    (putBytes m addr bs).2.size = m.size := by
  induction bs generalizing m addr with
  | nil => rfl
  | cons b bs ih =>
    unfold putBytes
    split
    · rfl
    · rw [ih, size_putByte]

def putText (m : Memory) (addr : Int32) (text : List UInt8) :
    Option (Int32 × AccessError) × Memory :=
  putBytes m addr (text ++ [0])

/-- Reads bytes up to a zero byte. `fuel` bounds their number. -/
def textFrom (m : Memory) : Nat → Int32 → List UInt8 → Except (Int32 × AccessError) (List UInt8)
  | 0, addr, _ => .error (addr, .outOfRange)
  | fuel + 1, addr, done =>
    match m.loadByte addr with
    | .error e => .error (addr, e)
    | .ok b => if b == 0 then .ok done.reverse else m.textFrom fuel (addr + 1) (b :: done)

/-- The text at an address, which ends at the first zero byte. -/
def getText (m : Memory) (addr : Int32) : Except (Int32 × AccessError) (List UInt8) :=
  m.textFrom (m.size + 1) addr []

end Memory

end MoonBackend
