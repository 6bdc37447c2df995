import Signet.Cipher.Aes
import Signet.Digest.Basic
import Signet.Error
/-!
Enciphering byte strings block by block, each block on its own. The input may come in pieces of any
size, but its whole length must be a multiple of the block size.
-/
namespace Signet

/-- A byte string that is being passed through a function on blocks. -/
structure Blockwise where
  -- bytes that do not fill a block yet
  pending : Bytes := []
  -- the blocks that are done, the latest first
  finished : List Block := []

namespace Blockwise

def blockSize : Nat := 16

/-- Takes one byte in, and a block through `f` when it is full. -/
def absorb (f : Block → Block) (s : Blockwise) (b : UInt8) : Blockwise :=
  let pending := s.pending ++ [b]
  if h : pending.length = 16 then
    { pending := [], finished := f ⟨pending.toArray, h⟩ :: s.finished }
  else { s with pending }

def update (f : Block → Block) (s : Blockwise) (bytes : Bytes) : Blockwise :=
  bytes.foldl (absorb f) s

/-- The blocks that are done, refused when a part of a block is left. -/
def finish (s : Blockwise) : Except Error Bytes :=
  if s.pending.isEmpty then .ok (s.finished.reverse.flatMap Vector.toList)
  else .error .invalidParameter

def apply (f : Block → Block) (bytes : Bytes) : Except Error Bytes :=
  (update f {} bytes).finish

end Blockwise

def encrypt (key : Digest) (bytes : Bytes) : Except Error Bytes :=
  Blockwise.apply (Aes.Key.ofBytes key.bytes).encrypt bytes

def decrypt (key : Digest) (bytes : Bytes) : Except Error Bytes :=
  Blockwise.apply (Aes.Key.ofBytes key.bytes).decrypt bytes

end Signet
