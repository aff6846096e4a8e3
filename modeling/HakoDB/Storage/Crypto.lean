import HakoDB.Basic

/-! Record encryption. The cipher itself is a parameter that decrypts what it encrypted
under the same nonce and adds a sixteen-byte tag. -/
namespace HakoDB
open ByteCodec

structure Cipher where
  encrypt : Bytes → Bytes → Bytes
  decrypt : Bytes → Bytes → Option Bytes
  decrypt_encrypt : ∀ nonce plaintext, decrypt nonce (encrypt nonce plaintext) = some plaintext
  encrypt_length : ∀ nonce plaintext, (encrypt nonce plaintext).length = plaintext.length+16

def nonceLen : ℕ := 12

/-- The nonce of a session is its random prefix followed by a running counter. -/
structure EncryptionContext where
  cipher : Cipher
  noncePrefix : UInt32
  counter : UInt64

namespace EncryptionContext

def nonce (ctx : EncryptionContext) : Bytes := beBytes 4 ctx.noncePrefix.toNat++beBytes 8 ctx.counter.toNat

def advance (ctx : EncryptionContext) : EncryptionContext := {ctx with counter := ctx.counter+1}

/-- The ciphertext follows its nonce. -/
def encrypt (ctx : EncryptionContext) (plaintext : Bytes) : Bytes :=
  ctx.nonce++ctx.cipher.encrypt ctx.nonce plaintext

@[simp] theorem nonce_length (ctx : EncryptionContext) : ctx.nonce.length = nonceLen := by
  simp [nonce,nonceLen]

theorem encrypt_length (ctx : EncryptionContext) (plaintext : Bytes) :
    (ctx.encrypt plaintext).length = plaintext.length+28 := by
  simp [encrypt,ctx.cipher.encrypt_length,nonceLen]
  omega

end EncryptionContext

namespace Cipher

def open' (cipher : Cipher) (input : Bytes) : Res Bytes :=
  match take? nonceLen input with
  | none => corrupt "ciphertext shorter than nonce"
  | some (nonce,ciphertext) =>
    match cipher.decrypt nonce ciphertext with
    | none => corrupt "decryption failed"
    | some p => .ok p

theorem open'_encrypt (ctx : EncryptionContext) (plaintext : Bytes) :
    ctx.cipher.open' (ctx.encrypt plaintext) = .ok plaintext := by
  rw [open',EncryptionContext.encrypt,take?_append _ _ ctx.nonce_length]
  simp [ctx.cipher.decrypt_encrypt]

end Cipher

end HakoDB
