import Libdap.Xdr.Framing
import Libdap.Xdr.ByteVector
import Libdap.Xdr.VectorRoundTrip
import Libdap.Dap4.WriteData
import Libdap.Dap4.ItemSequence
import Libdap.Dap4.DAP4StreamUnMarshaller
import Libdap.Constraint.Hyperslab
import Libdap.Constraint.RepeatedProjection
import Libdap.Dap2.Resolve
import Libdap.Constraint.TreeProjection
import Libdap.Dap2.Assignment
import Libdap.Dap2.GridLists
import Libdap.Dap2.DdsCopy
import Libdap.Dap2.SequenceTags
import Libdap.Http.Freshness
import Libdap.Http.TableRun
import Libdap.Http.IndexRoundTrip
import Libdap.Ppt.MessageRoundTrip
import Libdap.Ppt.ResponseRoundTrip
import Libdap.Ppt.WrittenChunks
import Libdap.Constraint.SplitClauses
import Libdap.Dap2.ResponseLimit
import Libdap.Bes.BESDapResponseCache
import Libdap.Cache.RecordedSize
import Libdap.Dap2.ArrayLength
import Libdap.Dap2.VectorStorage
import Libdap.Bes.IncludedKeys
import Libdap.Olfs.RequestRouting
import Libdap.Bes.DecodedCodes
import Libdap.Hdf5.FakeDimNames
import Libdap.Hdf5.NameClashing
import Libdap.Netcdf.Ncdds
import Libdap.Dap2.AttrTableCopy
import Libdap.Dap4.MimeUtil
import Libdap.Dap4.DataDdx
import Libdap.Ddx.BaseType
import Libdap.Ddx.DDXParser
import Libdap.Ddx.ParserStacks
import Libdap.Escaping.Www
import Libdap.Escaping.Xml
import Libdap.Escaping.Attr
import Libdap.Http.Metadata
import Libdap.Http.GarbageCollection
import Libdap.Http.DateTime
import Libdap.Dap4.Connect
import Libdap.Hdf5.HDF5CFUtil
import Libdap.Dap2.ErrorRoundTrip
import Libdap.Xml.Document
import Libdap.Xml.Scan
import Libdap.Ais.AISDatabaseParser
import Libdap.Ais.WrittenDocument
import Libdap.Ais.ReadBack
import Libdap.Dap2.Glob
import Libdap.Dap2.Operators
import Libdap.Constraint.Constants
import Libdap.Constraint.Selection
import Libdap.Dap2.SubsetValue
import Libdap.Dap2.ElementCount
import Libdap.Escaping.DoubleQuotes
import Libdap.Bes.BESXMLInterface
import Libdap.Http.LockRun
import Libdap.Olfs.CyclicGroup
import Libdap.Bes.BESServiceRegistry
import Libdap.Bes.CheckPath
import Libdap.Bes.Explode
import Libdap.Bes.Url
import Libdap.Functions.GetGrids
import Libdap.Functions.MakeArray
import Libdap.Functions.ConstrainedGrid
import Libdap.Olfs.BotBlocker
import Libdap.Core.LinkedList
import Libdap.Bes.BESContainerStorageList
import Libdap.Bes.BESContainerStorageFile
import Libdap.Core.Matcher
import Libdap.Olfs.PathFunction
import Libdap.Constraint.Index
import Libdap.Olfs.DimensionSubset
import Libdap.Olfs.SubsetForms
import Libdap.Ascii.PlainRows
import Libdap.Ascii.PrintedArrays
import Libdap.Client.RCRoundTrip
import Libdap.Constraint.UndoneEscapes
import Libdap.Dap2.LongToString
import Libdap.Hdf5.ReadPaths
import Libdap.Olfs.FieldRequests
import Libdap.Olfs.ReadRanges
import Libdap.Ppt.MarkFinder
