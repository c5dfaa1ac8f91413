import UniAlloc.Slab.Config

/-!
# Size classes

A request is rounded up to the size of a class, and every class carves its chunks
from runs of a fixed number of pages. The default build and the build with a fixed
heap have different tables.
-/

namespace UniAlloc

inductive SizeClass where
  | base (idx : Nat)
  | large (size : Nat)
  deriving DecidableEq

/-- What a build says about its size classes. Class `0` is for requests of no bytes. -/
structure SizeClasses where
  TOTAL_SIZE_CLASS : Nat
  MAX_SIZE : Nat
  getSizeClass : Nat → SizeClass
  getRoundedSizeByIdx : Nat → Nat
  getNumPagesByIdx : Nat → Nat

namespace TcSizeClass

def MAX_SIZE : Nat := 28032

def TOTAL_SIZE_CLASS : Nat := 64

def IDX_ARRAY : List Nat :=
  [0, 1, 2, 3, 4, 5, 6, 7, 8, 9, 10, 11, 12, 13, 14, 15, 16, 17, 17, 18, 18, 19, 19, 20, 20, 21,
    21, 22, 22, 23, 23, 24, 24, 25, 25, 25, 26, 26, 26, 27, 27, 27, 27, 27, 27, 28, 28, 28, 28,
    29, 29, 29, 29, 29, 30, 30, 30, 30, 30, 30, 30, 31, 31, 31, 31, 32, 32, 32, 32, 32, 32, 32,
    32, 33, 33, 33, 33, 33, 33, 33, 33, 34, 34, 34, 34, 34, 34, 34, 34, 35, 35, 35, 35, 35, 35,
    35, 35, 35, 35, 35, 35, 35, 35, 35, 35, 36, 36, 36, 36, 36, 36, 36, 36, 37, 37, 37, 37, 37,
    37, 37, 37, 37, 37, 37, 37, 37, 37, 37, 37, 38, 39, 40, 41, 42, 42, 43, 43, 44, 45, 46, 47,
    47, 47, 47, 48, 48, 49, 49, 49, 50, 50, 50, 50, 51, 51, 51, 51, 52, 52, 52, 52, 52, 52, 53,
    53, 53, 53, 53, 53, 53, 53, 53, 54, 54, 54, 54, 54, 54, 54, 54, 54, 54, 54, 54, 54, 55, 55,
    55, 55, 55, 55, 55, 55, 55, 56, 56, 56, 56, 56, 56, 56, 56, 56, 56, 56, 56, 57, 57, 57, 57,
    57, 57, 57, 57, 57, 57, 57, 57, 57, 57, 57, 57, 57, 58, 58, 58, 58, 58, 58, 58, 59, 59, 59,
    59, 59, 59, 59, 59, 59, 59, 59, 59, 59, 59, 59, 59, 59, 59, 59, 60, 60, 60, 60, 60, 60, 60,
    60, 60, 60, 60, 60, 60, 60, 60, 60, 60, 60, 60, 60, 60, 61, 61, 61, 61, 61, 61, 61, 61, 61,
    61, 61, 61, 61, 61, 61, 61, 61, 61, 61, 61, 61, 62, 62, 62, 62, 62, 62, 62, 62, 62, 62, 62,
    62, 62, 62, 62, 62, 62, 62, 62, 62, 62, 62, 63, 63, 63, 63, 63, 63, 63, 63, 63, 63, 63, 63,
    63, 63, 63, 63, 63, 63, 63, 63, 63, 63, 63, 63, 63, 63, 63]

def SIZE_CLASSES : List Nat :=
  [0, 8, 16, 24, 32, 40, 48, 56, 64, 72, 80, 88, 96, 104, 112, 120, 128, 144, 160, 176, 192,
    208, 224, 240, 256, 280, 304, 352, 384, 424, 480, 512, 576, 640, 704, 832, 896, 1024, 1152,
    1280, 1408, 1536, 1792, 2048, 2176, 2304, 2432, 2944, 3200, 3584, 4096, 4608, 5376, 6528,
    8192, 9344, 10880, 13056, 13952, 16384, 19072, 21760, 24576, 28032]

def SIZE_CLASS_PAGES : List Nat :=
  [0, 1, 1, 1, 1, 1, 1, 1, 1, 1, 1, 1, 1, 1, 1, 1, 1, 1, 1, 1, 1, 1, 1, 1, 2, 2, 2, 2, 2, 2, 2,
    4, 4, 4, 4, 4, 4, 8, 8, 8, 8, 8, 8, 16, 16, 16, 16, 16, 16, 16, 32, 32, 32, 32, 64, 64, 64,
    64, 64, 64, 64, 64, 64, 64]

/-- The class of `get_sizeclass_tuple2`. -/
def getSizeClass (reqSize : Nat) : SizeClass :=
  if reqSize ≤ 1024 then .base (IDX_ARRAY.getD ((reqSize + 7) >>> 3) 0)
  else if reqSize ≤ MAX_SIZE then .base (IDX_ARRAY.getD ((reqSize + 127 + (120 <<< 7)) >>> 7) 0)
  else .large reqSize

def getRoundedSizeByIdx (idx : Nat) : Nat := SIZE_CLASSES.getD idx 0

def getNumPagesByIdx (idx : Nat) : Nat := SIZE_CLASS_PAGES.getD idx 0

end TcSizeClass

/-- `tc_size_class`. -/
def tcSizeClass : SizeClasses :=
  ⟨TcSizeClass.TOTAL_SIZE_CLASS, TcSizeClass.MAX_SIZE, TcSizeClass.getSizeClass,
    TcSizeClass.getRoundedSizeByIdx, TcSizeClass.getNumPagesByIdx⟩

/-- `usize::trailing_zeros`. -/
def trailingZeros (x : Nat) : Nat := ((List.range 64).find? x.testBit).getD 64

namespace SmallSizeClass

def MAX_SIZE : Nat := 2048

def TOTAL_SIZE_CLASS : Nat := 10

def SIZE_ARRAY : List Nat := [0, 8, 16, 32, 64, 128, 256, 512, 1024, 2048]

def getSizeClass (req : Nat) : SizeClass :=
  let finalSize := req + 7 &&& (2 ^ 64 - 8)
  if finalSize ≤ MAX_SIZE then .base (trailingZeros finalSize - 2) else .large req

def getRoundedSizeByIdx (idx : Nat) : Nat := SIZE_ARRAY.getD idx 0

def getNumPagesByIdx (_idx : Nat) : Nat := 1

end SmallSizeClass

/-- `small_size_class`. -/
def smallSizeClass : SizeClasses :=
  ⟨SmallSizeClass.TOTAL_SIZE_CLASS, SmallSizeClass.MAX_SIZE, SmallSizeClass.getSizeClass,
    SmallSizeClass.getRoundedSizeByIdx, SmallSizeClass.getNumPagesByIdx⟩

end UniAlloc
