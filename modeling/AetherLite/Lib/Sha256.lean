import AetherLite.Lib.Bytes

/-! SHA-256, with words as natural numbers below 2^32 so that a digest can be
computed by the kernel. -/
set_option autoImplicit false

namespace Sha256

def word (n : Nat) : Nat := n % 4294967296
def rotr (x n : Nat) : Nat := word (x >>> n ||| x <<< (32-n))

def roundConstants : List Nat := [
  0x428a2f98,0x71374491,0xb5c0fbcf,0xe9b5dba5,0x3956c25b,0x59f111f1,0x923f82a4,0xab1c5ed5,
  0xd807aa98,0x12835b01,0x243185be,0x550c7dc3,0x72be5d74,0x80deb1fe,0x9bdc06a7,0xc19bf174,
  0xe49b69c1,0xefbe4786,0x0fc19dc6,0x240ca1cc,0x2de92c6f,0x4a7484aa,0x5cb0a9dc,0x76f988da,
  0x983e5152,0xa831c66d,0xb00327c8,0xbf597fc7,0xc6e00bf3,0xd5a79147,0x06ca6351,0x14292967,
  0x27b70a85,0x2e1b2138,0x4d2c6dfc,0x53380d13,0x650a7354,0x766a0abb,0x81c2c92e,0x92722c85,
  0xa2bfe8a1,0xa81a664b,0xc24b8b70,0xc76c51a3,0xd192e819,0xd6990624,0xf40e3585,0x106aa070,
  0x19a4c116,0x1e376c08,0x2748774c,0x34b0bcb5,0x391c0cb3,0x4ed8aa4a,0x5b9cca4f,0x682e6ff3,
  0x748f82ee,0x78a5636f,0x84c87814,0x8cc70208,0x90befffa,0xa4506ceb,0xbef9a3f7,0xc67178f2]

structure State where
  (a b c d e f g h : Nat)

def initial : State :=
  ⟨0x6a09e667,0xbb67ae85,0x3c6ef372,0xa54ff53a,0x510e527f,0x9b05688c,0x1f83d9ab,0x5be0cd19⟩

def bigSigma0 (x : Nat) : Nat := rotr x 2 ^^^ rotr x 13 ^^^ rotr x 22
def bigSigma1 (x : Nat) : Nat := rotr x 6 ^^^ rotr x 11 ^^^ rotr x 25
def smallSigma0 (x : Nat) : Nat := rotr x 7 ^^^ rotr x 18 ^^^ x >>> 3
def smallSigma1 (x : Nat) : Nat := rotr x 17 ^^^ rotr x 19 ^^^ x >>> 10
def ch (x y z : Nat) : Nat := x &&& y ^^^ (4294967295-x) &&& z
def maj (x y z : Nat) : Nat := x &&& y ^^^ x &&& z ^^^ y &&& z

def round (s : State) (k w : Nat) : State :=
  let t := s.h+bigSigma1 s.e+ch s.e s.f s.g+k+w
  ⟨word (t+bigSigma0 s.a+maj s.a s.b s.c),s.a,s.b,s.c,word (s.d+t),s.e,s.f,s.g⟩

/-- The rounds over the constants left, with the next sixteen words of the schedule. -/
def rounds : List Nat → List Nat → State → State
  | k :: ks, w :: ws, s =>
    let next := word (smallSigma1 (ws.getD 13 0)+ws.getD 8 0+smallSigma0 (ws.getD 0 0)+w)
    rounds ks (ws ++ [next]) (round s k w)
  | _, _, s => s

def add (s t : State) : State :=
  ⟨word (s.a+t.a),word (s.b+t.b),word (s.c+t.c),word (s.d+t.d),
    word (s.e+t.e),word (s.f+t.f),word (s.g+t.g),word (s.h+t.h)⟩

/-- The big-endian words of a byte string whose length is a multiple of four. -/
def words : Bytes → List Nat
  | a :: b :: c :: d :: bs => Bytes.toNat [a,b,c,d] :: words bs
  | _ => []

def blocks : Nat → List Nat → State → State
  | 0, _, s => s
  | n+1, ws, s => blocks n (ws.drop 16) (add s (rounds roundConstants (ws.take 16) s))

def pad (bs : Bytes) : Bytes :=
  bs ++ 0x80 :: List.replicate ((119-bs.length % 64) % 64) 0 ++ Bytes.bigEndian 8 (8*bs.length)

def digest (s : State) : Bytes :=
  [s.a,s.b,s.c,s.d,s.e,s.f,s.g,s.h].flatMap (Bytes.bigEndian 4)

def sha256 (bs : Bytes) : Bytes :=
  digest (blocks ((pad bs).length/64) (words (pad bs)) initial)

theorem sha256_length (bs : Bytes) : (sha256 bs).length = 32 := by
  simp [sha256,digest]

example : Bytes.toHex (sha256 [97,98,99]) =
    "ba7816bf8f01cfea414140de5dae2223b00361a396177a9cb410ff61f20015ad" := by decide +kernel

end Sha256
