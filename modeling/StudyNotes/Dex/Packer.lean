/-
# The dex packer and the shell (`IODexTest`, `AESUtils`, `ShellApplication`)

`main` extracts an APK into the directory `temp`, encrypts the dex files at its
root, renames each to its stem followed by its index in the listing, stores the
shell's dex as `classes.dex` and packs the directory again.  The shell extracts
the result, decrypts every other dex and installs them all.

The renaming runs over the listing while the files of later indices still have
their old names, and a rename onto an existing name replaces that file.
-/

import Mathlib.Algebra.Group.Nat.Defs
import StudyNotes.Dex.RoundTrip

namespace StudyNotes.Dex

open StudyNotes.Text StudyNotes.FileTree

/-! ## Parts the two programs share -/

def DEX : Str := ".dex".toList

def CLASSES_DEX : Str := "classes.dex".toList

/-- AES with the built-in password. -/
structure Cipher where
  encrypt : List UInt8 → List UInt8
  decrypt : List UInt8 → List UInt8
  decrypt_encrypt : ∀ bytes, decrypt (encrypt bytes) = bytes

/-- `encryptCipher.doFinal`: the padding makes the result longer than the content, and
one of 2^31 bytes or more is not returned, since no array holds it. -/
def Cipher.doFinal (cipher : Cipher) (content : List UInt8) : Except IOError (List UInt8) :=
  let result := cipher.encrypt content
  if result.length < 2 ^ 31 then .ok result else .error .negativeArraySize

/-- `Utils.getBytes`: the length goes through `toInt()`, so it wraps at 2^32, and a
negative one throws. -/
def getBytes (bytes : List UInt8) : Except IOError (List UInt8) :=
  let length := bytes.length % 2 ^ 32
  if length < 2 ^ 31 then .ok (bytes.take length) else .error .negativeArraySize

/-- A dex file at the root. -/
def isRootDex (f : Path × List UInt8) : Bool :=
  match f.1 with
  | [name] => endsWith name DEX
  | _ => false

/-- The contents of the dex files at the root. -/
def rootDexes (files : Files) : List (List UInt8) := (files.filter isRootDex).map Prod.snd

/-! ## The packer -/

/-- The encryption of one entry.  A directory at the root whose name ends in `.dex`
passes the name filter, and `getBytes` throws on it. -/
def encryptEntry (cipher : Cipher) (f : Path × List UInt8) : Except IOError (Path × List UInt8) :=
  match f.1 with
  | [] => .ok f
  | [name] =>
    if endsWith name DEX then do .ok ([name], ← cipher.doFinal (← getBytes f.2)) else .ok f
  | name :: _ => if endsWith name DEX then .error (.fileNotFound [name]) else .ok f

/-- `AESUtils.encryptAPKFile`. -/
def encryptAPKFile (cipher : Cipher) (apk : ZipOutputStream) : Except IOError Files := do
  (← unZip apk).mapM (encryptEntry cipher)

/-- `file.isFile`. -/
def isFile (files : Files) (path : Path) : Bool := files.any (·.1 = path)

/-- `file.renameTo(newFile)`: onto a file it replaces it, onto a directory it fails. -/
def renameTo (files : Files) (path newPath : Path) : Files :=
  if files.isDirectory newPath || path = newPath then files
  else
    (files.filter (·.1 ≠ newPath)).map fun f => if f.1 = path then (newPath, f.2) else f

/-- The name before its first `.dex`, the index and `.dex`. -/
def newName (name : Str) (index : ℕ) : Str :=
  name.take ((indexOfText name DEX).getD 0) ++ Nat.toDigits 10 index ++ DEX

/-- The renaming loop over the rest of the listing. -/
def renameDexes (files : Files) : List (Str × ℕ) → Files
  | [] => files
  | (name, index) :: rest =>
    if isFile files [name] && endsWith name DEX then
      renameDexes (renameTo files [name] [newName name index]) rest
    else renameDexes files rest

/-- Storing the shell's dex.  Without a directory the file cannot be created. -/
def storeShell (files : Files) (shell : List UInt8) : Except IOError Files :=
  if files.isEmpty then .error (.fileNotFound [CLASSES_DEX])
  else do
    match files.write [CLASSES_DEX] (← getBytes shell) with
    | some files => .ok files
    | none => .error (.fileNotFound [CLASSES_DEX])

/-- `main` up to the packing: the directory `temp`, given the order in which
`listFiles` enumerates it. -/
def prepare (cipher : Cipher) (apk : ZipOutputStream) (listing : List Str) (shell : List UInt8) :
    Except IOError Files := do
  storeShell (renameDexes (← encryptAPKFile cipher apk) listing.zipIdx) shell

/-! ## The shell -/

/-- The decryption of one entry; what is thrown is caught, and leaves the entry. -/
def decryptEntry (cipher : Cipher) (f : Path × List UInt8) : Path × List UInt8 :=
  if isRootDex f && f.1 ≠ [CLASSES_DEX] then
    match getBytes f.2 with
    | .ok bytes => (f.1, cipher.decrypt bytes)
    | .error _ => f
  else f

/-- `ShellApplication.IODexTest` on first start: the dex files handed to
`V19.install`, by their contents. -/
def installed (cipher : Cipher) (apk : ZipOutputStream) : Except IOError (List (List UInt8)) := do
  .ok (rootDexes ((← unZip apk).map (decryptEntry cipher)))

end StudyNotes.Dex
