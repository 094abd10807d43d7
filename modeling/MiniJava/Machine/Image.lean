import MiniJava.Machine.Encoding

/-!
# Executable images

An ELF file for x86-64 with one segment: the headers and the code together are
mapped to memory, readable and executable, and the first instruction is the entry.
-/

namespace MiniJava.Image

/-- The address to which the file is mapped. -/
def loadAddress : Nat := 0x400000

/-- The bytes of the file header. -/
def fileHeaderSize : Nat := 64

/-- The bytes of the one program header. -/
def programHeaderSize : Nat := 56

/-- The bytes in front of the code. -/
def headersSize : Nat := fileHeaderSize + programHeaderSize

/-- The address of the first instruction. -/
def entryAddress : Nat := loadAddress + headersSize

/-- The mark of an ELF file with 64-bit fields in little-endian order. -/
def identification : List UInt8 :=
  [0x7F, 0x45, 0x4C, 0x46, 2, 1, 1, 0, 0, 0, 0, 0, 0, 0, 0, 0]

/-- The file header: an executable for x86-64 with one program header behind the
file header, and no sections. -/
def fileHeader : List UInt8 :=
  identification ++
  littleEndian 2 2 ++ littleEndian 2 0x3E ++ littleEndian 4 1 ++
  littleEndian 8 entryAddress ++ littleEndian 8 fileHeaderSize ++ littleEndian 8 0 ++
  littleEndian 4 0 ++ littleEndian 2 fileHeaderSize ++
  littleEndian 2 programHeaderSize ++ littleEndian 2 1 ++
  littleEndian 2 0 ++ littleEndian 2 0 ++ littleEndian 2 0

@[simp]
theorem length_fileHeader : fileHeader.length = fileHeaderSize := rfl

/-- The program header: the whole file as one segment that is read and executed. -/
def programHeader (fileSize : Nat) : List UInt8 :=
  littleEndian 4 1 ++ littleEndian 4 5 ++ littleEndian 8 0 ++
  littleEndian 8 loadAddress ++ littleEndian 8 loadAddress ++
  littleEndian 8 fileSize ++ littleEndian 8 fileSize ++ littleEndian 8 0x1000

@[simp]
theorem length_programHeader (fileSize : Nat) :
    (programHeader fileSize).length = programHeaderSize := by
  simp [programHeader, programHeaderSize]

/-- The file that runs the code. -/
def ofCode (code : List UInt8) : List UInt8 :=
  fileHeader ++ programHeader (headersSize + code.length) ++ code

@[simp]
theorem length_ofCode (code : List UInt8) :
    (ofCode code).length = headersSize + code.length := by
  simp [ofCode, headersSize, Nat.add_assoc]

end MiniJava.Image
