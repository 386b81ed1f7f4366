/-!
# The class library

What the analysis knows of the class library that programs are written against: which types hold a resource, which
calls hand out a fresh one, and which names stand for collections, projections and test fixtures.
-/

namespace Disposal.Framework

/-! ### Types -/

/-- Types whose values their owner has to dispose. -/
def disposableTypes : List String :=
  ["IDisposable", "IAsyncDisposable", "Stream", "FileStream", "MemoryStream", "BufferedStream", "NetworkStream",
   "PipeStream", "GZipStream", "DeflateStream", "BrotliStream", "CryptoStream", "SslStream",
   "UnmanagedMemoryStream", "TextReader", "TextWriter", "StreamReader", "StreamWriter", "StringReader",
   "StringWriter", "BinaryReader", "BinaryWriter", "XmlReader", "XmlWriter", "Process", "HttpClient",
   "HttpClientHandler", "HttpMessageHandler", "HttpRequestMessage", "HttpResponseMessage", "HttpContent",
   "WebClient", "WebResponse", "Socket", "TcpClient", "TcpListener", "UdpClient", "Timer",
   "CancellationTokenSource", "CancellationTokenRegistration", "SemaphoreSlim", "Semaphore", "Mutex",
   "EventWaitHandle", "ManualResetEvent", "AutoResetEvent", "ManualResetEventSlim", "CountdownEvent",
   "ReaderWriterLockSlim", "Barrier", "WaitHandle", "BlockingCollection", "DbConnection", "DbCommand",
   "DbDataReader", "DbTransaction", "SqlConnection", "SqlCommand", "SqlDataReader", "SqlTransaction",
   "IDbConnection", "IDbCommand", "IDataReader", "IDbTransaction", "RegistryKey", "FileSystemWatcher",
   "MemoryMappedFile", "SafeHandle", "Bitmap", "Image", "Graphics", "Font", "Brush", "SolidBrush", "Pen",
   "Icon", "X509Certificate2", "HashAlgorithm", "SHA1", "SHA256", "SHA512", "MD5", "HMACSHA256", "Aes", "RSA",
   "ECDsa", "RandomNumberGenerator", "ICryptoTransform", "IEnumerator", "CompositeDisposable",
   "SerialDisposable", "SingleAssignmentDisposable", "Subject", "BehaviorSubject", "ReplaySubject",
   "ServiceProvider", "IServiceScope", "ServiceScope", "Activity"]

/-- Types whose values nobody has to dispose, whether or not they could be. -/
def plainTypes : List String :=
  ["Task", "ValueTask", "object", "string", "bool", "byte", "sbyte", "char", "short", "ushort", "int", "uint",
   "long", "ulong", "float", "double", "decimal", "nint", "nuint", "void", "dynamic", "Object", "String",
   "Int32", "Int64", "Boolean", "Guid", "DateTime", "DateTimeOffset", "TimeSpan", "List", "IList",
   "IEnumerable", "ICollection", "IReadOnlyList", "IReadOnlyCollection", "Dictionary", "IDictionary", "HashSet",
   "ISet", "Queue", "Stack", "Action", "Func", "CancellationToken", "StringBuilder", "Encoding"]

/-- Whether values of a library type have to be disposed, if the type is known. -/
def isDisposable? (name : String) : Option Bool :=
  if plainTypes.contains name then some false
  else if disposableTypes.contains name then some true
  else none

/-- Types whose name can stand in front of a static member. -/
def staticTypes : List String :=
  ["File", "Directory", "Path", "GC", "Task", "Tuple", "ValueTuple", "Console", "Process", "Enumerable", "Math",
   "Environment", "Activator", "Image", "Bitmap", "Encoding", "CancellationTokenSource", "WebRequest", "Stream",
   "TextWriter", "TextReader", "StreamReader", "Interlocked", "Volatile", "Debug", "Trace", "string", "String",
   "object", "Object", "int", "Guid", "DateTime", "TimeSpan", "Array", "Convert", "Enum", "Nullable",
   "Observable", "RandomNumberGenerator", "SHA256", "MD5", "Aes", "RSA"]

/-- Whether the name stands for a type with static members. -/
def isStaticType (name : String) : Bool :=
  staticTypes.contains name

/-- Generic collections with one argument, the type of their elements. -/
def sequenceTypes : List String :=
  ["IEnumerable", "IList", "List", "ICollection", "IReadOnlyList", "IReadOnlyCollection", "ImmutableArray",
   "ImmutableList", "HashSet", "ISet", "Queue", "Stack", "ConcurrentBag", "ConcurrentQueue",
   "ObservableCollection", "Collection"]

/-- Whether the name is that of a collection of its only argument. -/
def isSequenceType (name : String) : Bool :=
  sequenceTypes.contains name

/-- Generic collections with two arguments, the second the type of their elements. -/
def dictionaryTypes : List String :=
  ["Dictionary", "IDictionary", "IReadOnlyDictionary", "ConcurrentDictionary", "ImmutableDictionary"]

/-- Whether the name is that of a collection of its second argument. -/
def isDictionaryType (name : String) : Bool :=
  dictionaryTypes.contains name

/-! ### Calls and members -/

/-- A library method: the type it is called on, what it returns, and whether the caller owns the result. -/
structure Call where
  receiver : String
  method : String
  returns : String
  creates : Bool
  deriving DecidableEq, Repr

/-- Methods whose result the caller owns, by receiver, name and result type. -/
def creatingCalls : List (String × String × String) :=
  [("File", "OpenRead", "FileStream"), ("File", "OpenWrite", "FileStream"), ("File", "Open", "FileStream"),
   ("File", "Create", "FileStream"), ("File", "OpenText", "StreamReader"),
   ("File", "CreateText", "StreamWriter"), ("File", "AppendText", "StreamWriter"),
   ("FileInfo", "OpenRead", "FileStream"), ("FileInfo", "OpenWrite", "FileStream"),
   ("FileInfo", "Open", "FileStream"), ("FileInfo", "Create", "FileStream"),
   ("FileInfo", "OpenText", "StreamReader"), ("Process", "Start", "Process"), ("Image", "FromFile", "Image"),
   ("Image", "FromStream", "Image"), ("Bitmap", "FromFile", "Image"),
   ("CancellationTokenSource", "CreateLinkedTokenSource", "CancellationTokenSource"),
   ("WebRequest", "GetResponse", "WebResponse"), ("RandomNumberGenerator", "Create", "RandomNumberGenerator"),
   ("SHA256", "Create", "SHA256"), ("MD5", "Create", "MD5"), ("Aes", "Create", "Aes"), ("RSA", "Create", "RSA"),
   ("Console", "OpenStandardInput", "Stream"), ("Console", "OpenStandardOutput", "Stream"),
   ("Console", "OpenStandardError", "Stream"), ("Stream", "Synchronized", "Stream"),
   ("TextWriter", "Synchronized", "TextWriter"), ("TextReader", "Synchronized", "TextReader")]

/-- Methods whose result has another owner or needs none, by receiver, name and result type. -/
def sharingCalls : List (String × String × String) :=
  [("Task", "Delay", "Task"), ("Task", "Run", "Task"), ("Task", "FromResult", "Task"),
   ("Task", "WhenAll", "Task"), ("Task", "WhenAny", "Task"), ("File", "ReadAllText", "string"),
   ("File", "ReadAllBytes", "byte[]"), ("File", "ReadAllLines", "string[]"), ("File", "Exists", "bool"),
   ("Path", "Combine", "string"), ("Path", "GetFileName", "string"),
   ("Process", "GetCurrentProcess", "Process"), ("Process", "GetProcessById", "Process"),
   ("Encoding", "GetEncoding", "Encoding")]

/-- The known methods. -/
def calls : List Call :=
  creatingCalls.map (fun (r, m, t) => ⟨r, m, t, true⟩) ++ sharingCalls.map (fun (r, m, t) => ⟨r, m, t, false⟩)

/-- The method with a name on a receiver type. -/
def call? (receiver method : String) : Option Call :=
  calls.find? fun c => c.receiver == receiver && c.method == method

/-- Static members shared by the whole process, by receiver, name and type. -/
def staticMembers : List (String × String × String) :=
  [("Console", "Out", "TextWriter"), ("Console", "Error", "TextWriter"), ("Console", "In", "TextReader"),
   ("Stream", "Null", "Stream"), ("TextWriter", "Null", "TextWriter"), ("StreamReader", "Null", "StreamReader"),
   ("Task", "CompletedTask", "Task"), ("string", "Empty", "string"), ("String", "Empty", "string")]

/-- The type of a shared static member. -/
def staticMember? (receiver member : String) : Option String :=
  (staticMembers.find? fun (r, m, _) => r == receiver && m == member).map (·.2.2)

/-- Methods that hand out an element of a collection. -/
def elementProjections : List String :=
  ["First", "FirstOrDefault", "Single", "SingleOrDefault", "Last", "LastOrDefault", "ElementAt",
   "ElementAtOrDefault", "Find", "Min", "Max", "GetValueOrDefault"]

/-- Whether a method of this name hands out an element of its receiver. -/
def isElementProjection (method : String) : Bool :=
  elementProjections.contains method

/-- Methods that store their argument in the receiver. -/
def collectionAdders : List String :=
  ["Add", "AddOrUpdate", "TryAdd", "GetOrAdd", "Insert", "Push", "Enqueue", "Post", "Register", "Attach"]

/-- Whether a method of this name stores its argument. -/
def isCollectionAdder (method : String) : Bool :=
  collectionAdders.contains method

/-! ### Attributes -/

/-- Attributes of a method that prepares a test, each with the attribute of the method that cleans up after it. -/
def fixturePairs : List (String × String) :=
  [("SetUp", "TearDown"), ("OneTimeSetUp", "OneTimeTearDown"), ("TestFixtureSetUp", "TestFixtureTearDown"),
   ("TestInitialize", "TestCleanup"), ("ClassInitialize", "ClassCleanup"), ("GlobalSetup", "GlobalCleanup"),
   ("IterationSetup", "IterationCleanup")]

/-- The clean-up attribute that goes with a set-up attribute. -/
def teardownFor? (setup : String) : Option String :=
  fixturePairs.lookup setup

/-- Attributes that mark a declaration as written by a tool. -/
def generatedCodeAttributes : List String :=
  ["GeneratedCode", "CompilerGenerated"]

end Disposal.Framework
