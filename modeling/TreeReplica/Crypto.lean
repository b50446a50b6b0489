import TreeReplica.Fault

/-!
What key exchange and authentication need from cryptography. `Crypto.plaintext` passes everything
through and is meant for trusted networks. -/

namespace TreeReplica

structure Crypto where
  publicKey : Bytes
  /-- Encrypts a plain text for the owner of a public key. -/
  encrypt (plain key : Bytes) : Except Fault Bytes
  /-- Decrypts what was encrypted for this node. -/
  decrypt (cipher : Bytes) : Except Fault Bytes

namespace Crypto

/-- Everything passes unchanged; the public key is a mere label. -/
def plaintext (label : Bytes) : Crypto where
  publicKey := label
  encrypt plain key := if key = [] then .error (.crypto .noPeerKey) else .ok plain
  decrypt cipher := .ok cipher

/-- The label of a node that was given none. -/
def defaultLabel : Bytes := Bytes.ofText "treesync-plaintext"

end Crypto

end TreeReplica
