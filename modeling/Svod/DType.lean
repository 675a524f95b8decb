/-
  Svod.DType

  Element types and devices (`dtype/src/lib.rs`).
-/

namespace Svod

/-- The memory a pointer points into. -/
inductive AddrSpace where
  | global | local | reg
deriving DecidableEq, Repr

/-- The elements of an image. -/
inductive ImageKind where
  | half | float
deriving DecidableEq, Repr

/-- Scalar types.  A weak one is that of a literal, which takes the type of its partner. -/
inductive ScalarDType where
  | bool | weakInt
  | int8 | uint8 | int16 | uint16 | int32 | uint32 | int64 | uint64
  | weakFloat
  | fp8e4m3 | fp8e4m3fnuz | fp8e5m2 | fp8e5m2fnuz
  | float16 | bfloat16 | float32 | float64
  | void | index
deriving DecidableEq, Repr

/-- Types of values: scalars, vectors of them, pointers and images. -/
inductive DType where
  | scalar (s : ScalarDType)
  | vector (s : ScalarDType) (count : Nat)
  | ptr (base : DType) (addrspace : AddrSpace) (size : Option Nat) (vcount : Nat)
  | image (kind : ImageKind) (shape : List Nat)
deriving DecidableEq, Repr

namespace ScalarDType

/-- The bytes of one element. -/
def bytes : ScalarDType → Nat
  | .bool => 1
  | .weakInt | .weakFloat => 100
  | .int8 | .uint8 => 1
  | .int16 | .uint16 => 2
  | .int32 | .uint32 => 4
  | .int64 | .uint64 => 8
  | .fp8e4m3 | .fp8e4m3fnuz | .fp8e5m2 | .fp8e5m2fnuz => 1
  | .float16 | .bfloat16 => 2
  | .float32 => 4
  | .float64 => 8
  | .void => 0
  | .index => 8

/-- Signed integers of a fixed width. -/
def isSigned : ScalarDType → Bool
  | .int8 | .int16 | .int32 | .int64 => true
  | _ => false

/-- Unsigned integers. -/
def isUnsigned : ScalarDType → Bool
  | .uint8 | .uint16 | .uint32 | .uint64 => true
  | _ => false

/-- Integers of any kind, weak ones and indices too. -/
def isInt (s : ScalarDType) : Bool :=
  s.isSigned || s.isUnsigned || s == .weakInt || s == .index

/-- Floating-point types. -/
def isFloat : ScalarDType → Bool
  | .weakFloat | .fp8e4m3 | .fp8e4m3fnuz | .fp8e5m2 | .fp8e5m2fnuz
  | .float16 | .bfloat16 | .float32 | .float64 => true
  | _ => false

end ScalarDType

namespace DType

/-- Base scalar of a type; images read as `float32`. -/
def base : DType → ScalarDType
  | .scalar s => s
  | .vector s _ => s
  | .ptr b _ _ _ => b.base
  | .image _ _ => .float32

/-- The bytes of one value; a pointer or an image is an address. -/
def bytes : DType → Nat
  | .scalar s => s.bytes
  | .vector s count => s.bytes * count
  | .ptr _ _ _ _ => 8
  | .image _ _ => 8

/-- The base is `bool`. -/
def isBool (d : DType) : Bool := d.base == .bool

/-- A scalar or a vector of integers. -/
def isInt : DType → Bool
  | .scalar s | .vector s _ => s.isInt
  | _ => false

end DType

/-- A device; a disk device is a file. -/
inductive DeviceSpec where
  | cpu
  | cuda (deviceId : Nat)
  | amd (deviceId : Nat)
  | metal (deviceId : Nat)
  | webGpu
  | disk (path : String)
deriving DecidableEq, Repr

/-- The device is a file. -/
def DeviceSpec.isDisk : DeviceSpec → Bool
  | .disk _ => true
  | _ => false

/-- The device name, the sort key of the lane scheduler. -/
def DeviceSpec.canonicalize : DeviceSpec → String
  | .cpu => "CPU"
  | .cuda deviceId => "CUDA:" ++ toString deviceId
  | .amd deviceId => "AMD:" ++ toString deviceId
  | .metal deviceId => "Metal:" ++ toString deviceId
  | .webGpu => "WebGPU"
  | .disk path => "DISK:" ++ path

end Svod
