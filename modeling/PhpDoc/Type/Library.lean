/-!
The classes and interfaces that every program knows, each with its direct supertypes.
-/
namespace PhpDoc.Library

def generalRows : List (String × List String) := [
  ("\\ArrayAccess", []),
  ("\\BackedEnum", ["\\UnitEnum"]),
  ("\\Closure", ["callable"]),
  ("\\Directory", []),
  ("\\Fiber", []),
  ("\\php_user_filter", []),
  ("\\SensitiveParameterValue", []),
  ("\\Serializable", []),
  ("\\stdClass", []),
  ("\\Stringable", []),
  ("\\UnitEnum", []),
  ("\\WeakReference", [])]

def iterableRows : List (String × List String) := [
  ("\\Generator", ["\\Iterator"]),
  ("\\InternalIterator", ["\\Iterator"]),
  ("\\Iterator", ["\\Traversable"]),
  ("\\IteratorAggregate", ["\\Traversable"]),
  ("\\Traversable", ["iterable"]),
  ("\\WeakMap", ["\\ArrayAccess", "\\Countable", "\\IteratorAggregate"])]

def throwableRows : List (String × List String) := [
  ("\\ArithmeticError", ["\\Error"]),
  ("\\AssertionError", ["\\Error"]),
  ("\\CompileError", ["\\Error"]),
  ("\\DivisionByZeroError", ["\\ArithmeticError"]),
  ("\\Error", ["\\Throwable"]),
  ("\\ErrorException", ["\\Exception"]),
  ("\\Exception", ["\\Throwable"]),
  ("\\ParseError", ["\\CompileError"]),
  ("\\Throwable", ["\\Stringable"]),
  ("\\TypeError", ["\\Error"])]

def dataStructureRows : List (String × List String) := [
  ("\\SplDoublyLinkedList", ["\\Iterator", "\\Countable", "\\ArrayAccess", "\\Serializable"]),
  ("\\SplStack", ["\\SplDoublyLinkedList"]),
  ("\\SplQueue", ["\\SplDoublyLinkedList"]),
  ("\\SplHeap", ["\\Iterator", "\\Countable"]),
  ("\\SplMaxHeap", ["\\SplHeap"]),
  ("\\SplMinHeap", ["\\SplHeap"]),
  ("\\SplPriorityQueue", ["\\Iterator", "\\Countable"]),
  ("\\SplFixedArray", ["\\IteratorAggregate", "\\ArrayAccess", "\\Countable", "\\JsonSerializable"]),
  ("\\SplObjectStorage", ["\\Countable", "\\Iterator", "\\Serializable", "\\ArrayAccess"])]

def iteratorRows : List (String × List String) := [
  ("\\AppendIterator", ["\\IteratorIterator"]),
  ("\\ArrayIterator", ["\\SeekableIterator", "\\ArrayAccess", "\\Serializable", "\\Countable"]),
  ("\\CachingIterator", ["\\IteratorIterator", "\\ArrayAccess", "\\Countable", "\\Stringable"]),
  ("\\CallbackFilterIterator", ["\\FilterIterator"]),
  ("\\DirectoryIterator", ["\\SplFileInfo", "\\SeekableIterator"]),
  ("\\EmptyIterator", ["\\Iterator"]),
  ("\\FilesystemIterator", ["\\DirectoryIterator"]),
  ("\\FilterIterator", ["\\IteratorIterator"]),
  ("\\GlobalIterator", ["\\FilesystemIterator", "\\Countable"]),
  ("\\InfiniteIterator", ["\\IteratorIterator"]),
  ("\\IteratorIterator", ["\\OuterIterator"]),
  ("\\LimitIterator", ["\\IteratorIterator"]),
  ("\\MultipleIterator", ["\\Iterator"]),
  ("\\NoRewindIterator", ["\\IteratorIterator"]),
  ("\\ParentIterator", ["\\RecursiveFilterIterator"]),
  ("\\RecursiveArrayIterator", ["\\ArrayIterator", "\\RecursiveIterator"]),
  ("\\RecursiveCachingIterator", ["\\CachingIterator", "\\RecursiveIterator"]),
  ("\\RecursiveCallbackFilterIterator", ["\\CallbackFilterIterator", "\\RecursiveIterator"]),
  ("\\RecursiveDirectoryIterator", ["\\FilesystemIterator", "\\RecursiveIterator"]),
  ("\\RecursiveFilterIterator", ["\\FilterIterator", "\\RecursiveIterator"]),
  ("\\RecursiveIteratorIterator", ["\\OuterIterator"]),
  ("\\RecursiveRegexIterator", ["\\RegexIterator", "\\RecursiveIterator"]),
  ("\\RecursiveTreeIterator", ["\\RecursiveIteratorIterator"]),
  ("\\RegexIterator", ["\\FilterIterator"])]

def interfaceRows : List (String × List String) := [
  ("\\Countable", []),
  ("\\OuterIterator", ["\\Iterator"]),
  ("\\RecursiveIterator", ["\\Iterator"]),
  ("\\SeekableIterator", ["\\Iterator"])]

def exceptionRows : List (String × List String) := [
  ("\\BadFunctionCallException", ["\\LogicException"]),
  ("\\BadMethodCallException", ["\\BadFunctionCallException"]),
  ("\\DomainException", ["\\LogicException"]),
  ("\\InvalidArgumentException", ["\\LogicException"]),
  ("\\LengthException", ["\\LogicException"]),
  ("\\LogicException", ["\\Exception"]),
  ("\\OutOfBoundsException", ["\\RuntimeException"]),
  ("\\OutOfRangeException", ["\\LogicException"]),
  ("\\OverflowException", ["\\RuntimeException"]),
  ("\\RangeException", ["\\RuntimeException"]),
  ("\\RuntimeException", ["\\Exception"]),
  ("\\UnderflowException", ["\\RuntimeException"]),
  ("\\UnexpectedValueException", ["\\RuntimeException"])]

def fileRows : List (String × List String) := [
  ("\\SplFileInfo", ["\\Stringable"]),
  ("\\SplFileObject", ["\\SplFileInfo", "\\RecursiveIterator", "\\SeekableIterator"]),
  ("\\SplTempFileObject", ["\\SplFileObject"])]

def otherRows : List (String × List String) := [
  ("\\ArrayObject", ["\\IteratorAggregate", "\\ArrayAccess", "\\Serializable", "\\Countable"]),
  ("\\SplObserver", []),
  ("\\SplSubject", [])]

def rows : List (String × List String) :=
  generalRows ++ iterableRows ++ throwableRows ++ dataStructureRows ++
    iteratorRows ++ interfaceRows ++ exceptionRows ++
    fileRows ++ otherRows

end PhpDoc.Library
